import GoMachine.Proofs.Schedule.Known
import GoMachine.Proofs.Owns.Threads
import GoMachine.Proofs.Store.Chains
/-!
# The run queue

What the scheduler does to its queue: a thread that is in no slot goes to the back, and the thread
in front comes out and is in no slot then.
-/
namespace GoMachine

open Heap (Orderly Later Joins Owns Linked known_update)

variable {K : Set Address} {F J : Facts} {C O : Multiset Address} {n : Nat} {h h' : Heap}
  {a b l q s t v : Address} {B : Body} {links ts : List Address}

/-- The run queue of a scheduler, with its links and the threads in it, is all that is known. -/
structure Queued (F : Facts) (s q : Address) (links ts : List Address) : Prop where
  scheduler : ∃ id, F s = some ⟨.scheduler, [id], [q]⟩
  queue : F q = some ⟨.queue, [links.length.toUInt64], [links.headD .nil, links.getLastD .nil]⟩
  linked : Linked F links ts
  nodup : links.Nodup
  runnable : ∀ {t}, t ∈ ts → t ≠ .nil ∧ F t = none
  only : ∀ {a B}, F a = some B → a = s ∨ a = q ∨ a ∈ links

namespace Heap

theorem isLive_iff_hasTag : h.isLive a ↔ ∃ t, h.HasTag t a := by
  refine ⟨fun hl => ⟨_, _, cell?_eq_some.2 ⟨hl, rfl⟩, rfl⟩, ?_⟩
  rintro ⟨t, k⟩
  exact k.isLive

namespace Orderly

variable {L : Multiset Address} {tag : Tag} {fs : List UInt64} {cs : List Address} {i : Nat}
  {w : UInt64}

theorem child (o : Orderly K F O L h) (hB : F a = some ⟨tag, fs, cs⟩) (hb : cs[i]? = some b)
    (run : Query.child a tag i h = .ok v) : v = b := by
  obtain ⟨c, hc, -, hi⟩ := o.sound.child_ok.1 (ofHeap_ok.1 run)
  obtain ⟨c', hc', e⟩ := o.cell hB
  obtain rfl : c = c' := by simpa [hc] using hc'
  cases e
  simpa [hi] using hb

theorem field (o : Orderly K F O L h) (hB : F a = some ⟨tag, fs, cs⟩) {w' : UInt64}
    (hw : fs[i]? = some w) (run : Query.field a tag i h = .ok w') : w' = w := by
  obtain ⟨c, hc, -, hi⟩ := o.sound.field_ok.1 (ofHeap_ok.1 run)
  obtain ⟨c', hc', e⟩ := o.cell hB
  obtain rfl : c = c' := by simpa [hc] using hc'
  cases e
  simpa [hi] using hw

theorem ne_nil (o : Orderly K F O L h) (known : F a ≠ none) : a ≠ .nil :=
  o.sound.ne_nil (o.isLive_of_private (.inl known))

end Orderly
end Heap

namespace Queued

theorem queue_ne (qd : Queued F s q links ts) : q ≠ s := by
  rintro rfl
  obtain ⟨id, e⟩ := qd.scheduler
  simp [qd.queue] at e

theorem link_ne_queue (qd : Queued F s q links ts) (ha : a ∈ links) : a ≠ q := by
  rintro rfl
  obtain ⟨v, next, e, -⟩ := qd.linked.known ha
  simp [qd.queue] at e

theorem link_ne_scheduler (qd : Queued F s q links ts) (ha : a ∈ links) : a ≠ s := by
  rintro rfl
  obtain ⟨v, next, e, -⟩ := qd.linked.known ha
  obtain ⟨id, e'⟩ := qd.scheduler
  simp [e] at e'

theorem link_some (qd : Queued F s q links ts) (ha : a ∈ links) : F a ≠ none := by
  obtain ⟨v, next, e, -⟩ := qd.linked.known ha
  simp [e]

/-- A link with a thread was added at the back. -/
theorem extend (qd : Queued F s q links ts) (fresh : F l = none) (hs : J s = F s)
    (hq : J q = some ⟨.queue, [links.length.toUInt64 + 1], [(links ++ [l]).headD .nil, l]⟩)
    (linked : Linked J (links ++ [l]) (ts ++ [v])) (only : ∀ a, a ≠ l → F a = none → J a = none)
    (runnable : ∀ t ∈ ts ++ [v], t ≠ .nil ∧ t ≠ l ∧ F t = none) :
    Queued J s q (links ++ [l]) (ts ++ [v]) := by
  refine ⟨hs ▸ qd.scheduler, ?_, linked, ?_, fun {t} ht => ?_, fun {a B} ha => ?_⟩
  · rw [hq, List.length_append, List.length_singleton, length_succ_toUInt64, List.getLastD_concat]
  · exact qd.nodup.append (List.nodup_singleton l) (List.disjoint_singleton.2 fun hl =>
      qd.link_some hl fresh)
  · obtain ⟨hn, hl, unknown⟩ := runnable t ht
    exact ⟨hn, only t hl unknown⟩
  · by_cases hal : a = l
    · simp [hal]
    have known : F a ≠ none := fun unknown => by simp [only a hal unknown] at ha
    obtain ⟨B', hB⟩ := Option.ne_none_iff_exists'.1 known
    exact (qd.only hB).imp_right (.imp_right (List.mem_append_left _))

/-- There are threads in the queue. -/
theorem hasTag (qd : Queued F s q links ts) {L : Multiset Address} (o : Orderly K F O L h)
    (ht : t ∈ ts) : h.HasTag .thread t := by
  obtain ⟨hn, unknown⟩ := qd.runnable ht
  obtain ⟨d, D, hd, hm⟩ := qd.linked.value_held ht
  exact ((o.inner hd hm).resolve_left hn).resolve_left fun k => k unknown

end Queued

/-- A new link takes a thread. -/
theorem Chain.createOwned_takes (o : Orderly K F (v ::ₘ O) 0 h) (own : Owns 0 (n + 1) (v ::ₘ C) h)
    (hv : h.HasTag .thread v) (idle : h.edges.count v = 0) :
    Yields (Chain.createOwned v .nil) h fun l h' => h.isLive l = false ∧
      Orderly K (Function.update F l (some ⟨.linkedList, [], [v, .nil]⟩)) (l ::ₘ O) 0 h' ∧
      Joins v h h' := by
  refine (Yields.orRelease (Q := fun l h' => h.isLive l = false ∧ Orderly K (Function.update F l
    (some ⟨.linkedList, [], [.nil, .nil]⟩)) (l ::ₘ v ::ₘ O) 0 h' ∧
    (h'.HasTag .thread v ∧ h'.edges.count v = 0) ∧ Joins v h h') ?_).bind
    fun l h₁ ⟨dead, o₁, idle₁, j₁⟩ => ?_
  · refine Yields.heap fun l h' run => ?_
    obtain ⟨dead, tagged, o', -, kept, count⟩ := o.allocate own (J := Function.update F l
      (some ⟨.linkedList, [], [.nil, .nil]⟩)) (.inr ⟨rfl, rfl⟩) run
    have old : ∀ {t u}, t.isPersonal → h'.HasTag t u → h.HasTag t u := fun {t u} ht k => by
      refine (kept ?_).1 k
      rintro rfl
      rw [k.unique tagged] at ht
      cases ht
    have hv' : h'.HasTag .thread v := (kept fun e => by simp [← e, hv.isLive] at dead).2 hv
    exact ⟨dead, o', ⟨hv', (count v (o.sound.ne_nil hv.isLive)).trans idle⟩, old,
      fun _ k => (count _ (o'.sound.ne_nil k.isLive)).le⟩
  have blank := Function.update_self l (some (⟨.linkedList, [], [.nil, .nil]⟩ : Body)) F
  refine (o₁.swap.setChildOwned blank rfl (.inl (o₁.nil_still blank))
    (.inr (.inr idle₁))).heap.bind
    fun _ h₂ ⟨o₂, j₂⟩ => ?_
  rw [Function.update_idem] at o₂
  have filled := Function.update_self l (some (⟨.linkedList, [], [v, .nil]⟩ : Body)) F
  refine (o₂.clearChild filled rfl (.inl (o₂.nil_still filled))).heap.bind fun _ h₃ ⟨o₃, l₃⟩ =>
    .pure ?_
  rw [Function.update_idem] at o₃
  exact ⟨dead, o₃, (j₁.trans j₂).trans l₃.joins⟩

/-! ## A thread goes to the back -/

/-- A link comes to be the last one of a queue. -/
theorem Queue.closeBack_orderly {w : UInt64} {front back : Address} (o : Orderly K F (l ::ₘ O) 0 h)
    (hq : F q = some ⟨.queue, [w], [front, back]⟩) (hl : F l ≠ none)
    (still : back = .nil ∨ back = front ∨ ∃ d D, d ≠ q ∧ F d = some D ∧ back ∈ D.children) :
    Yields (closeBack q l) h fun _ h' =>
      Orderly K (Function.update F q (some ⟨.queue, [w + 1], [front, l]⟩)) O 0 h' ∧ Later h h' := by
  have here := Function.update_self q (some (⟨.queue, [w], [front, l]⟩ : Body)) F
  refine (o.setChildOwned hq rfl ?_ (.inr (.inl hl))).heap.bind fun _ h₁ ⟨o₁, j₁⟩ => ?_
  · rcases still with rfl | rfl | ⟨d, D, ne, hd, hm⟩
    · exact .inl (o.nil_still hq)
    · exact .inr (.inr ⟨q, _, here, by simp⟩)
    · exact .inr (.inr ⟨d, D, known_update hd ne, hm⟩)
  refine .read fun w' run => ?_
  obtain rfl := o₁.field here rfl run
  refine (o₁.setField here Nat.zero_lt_one).heap.mono fun _ h₂ ⟨o₂, l₂⟩ => ?_
  rw [Function.update_idem] at o₂
  obtain ⟨B, hB⟩ := Option.ne_none_iff_exists'.1 hl
  exact ⟨o₂, (j₁.later (o.not_thread hB)).trans l₂⟩

namespace Queued

/-- What is known when the link `l` with the thread `v` stands behind the others, but is not the
last one of the run queue yet. -/
structure Behind (F : Facts) (s q : Address) (links ts : List Address) (l v : Address) (J : Facts) :
    Prop where
  scheduler : J s = F s
  queue : J q = some ⟨.queue, [links.length.toUInt64],
    [(links ++ [l]).headD .nil, links.getLastD .nil]⟩
  linked : Linked J (links ++ [l]) (ts ++ [v])
  only : ∀ a, a ≠ l → F a = none → J a = none
  held : links.getLastD .nil = .nil ∨ links.getLastD .nil = (links ++ [l]).headD .nil ∨
    ∃ d D, d ≠ q ∧ J d = some D ∧ links.getLastD .nil ∈ D.children

/-- Nil is the last link of an empty queue only. -/
theorem eq_nil {L : Multiset Address} (qd : Queued F s q links ts) (o : Orderly K F O L h)
    (e : links.getLastD .nil = .nil) : links = [] := by
  rcases List.eq_nil_or_concat links with rfl | ⟨us, b, rfl⟩
  · rfl
  · rw [List.concat_eq_append, List.getLastD_concat] at e
    have known := qd.link_some (a := b) (by simp)
    exact absurd e (o.ne_nil known)

/-- The link comes to the front of an empty queue. -/
theorem first (qd : Queued F s q [] ts) (fresh : F l = none) : Behind F s q [] ts l v
    (Function.update (Function.update F l (some ⟨.linkedList, [], [v, .nil]⟩)) q
      (some ⟨.queue, [0], [l, .nil]⟩)) := by
  obtain rfl : ts = [] := by
    cases ts with
    | nil => rfl
    | cons => exact qd.linked.elim
  obtain ⟨id, hs⟩ := qd.scheduler
  have ne : ∀ {a B}, F a = some B → a ≠ l := fun hB e => by simp [e, fresh] at hB
  refine ⟨?_, Function.update_self .., ⟨?_, trivial⟩, fun a hal ha => ?_, .inl rfl⟩
  · rw [Function.update_of_ne qd.queue_ne.symm, Function.update_of_ne (ne hs)]
  · exact known_update (Function.update_self ..) (ne qd.queue).symm
  · have haq : a ≠ q := fun e => by simp [e, qd.queue] at ha
    rwa [Function.update_of_ne haq, Function.update_of_ne hal]

/-- The link comes behind the last one. -/
theorem next {us : List Address} {b u : Address} (qd : Queued F s q (us ++ [b]) ts)
    (fresh : F l = none) (hb : F b = some ⟨.linkedList, [], [u, .nil]⟩) :
    Behind F s q (us ++ [b]) ts l v (Function.update (Function.update F l
      (some ⟨.linkedList, [], [v, .nil]⟩)) b (some ⟨.linkedList, [], [u, l]⟩)) := by
  obtain ⟨id, hs⟩ := qd.scheduler
  obtain ⟨vs, u', rfl, hb'⟩ := qd.linked.last
  obtain rfl : u = u' := by simpa [hb] using hb'
  have ne : ∀ {a B}, F a = some B → a ≠ l := fun hB e => by simp [e, fresh] at hB
  have hbq : b ≠ q := qd.link_ne_queue (by simp)
  have apart : ∀ d ∈ us, d ≠ b := fun d hd e =>
    (List.nodup_append.1 qd.nodup).2.2 d hd b (by simp) e
  refine ⟨?_, ?_, ?_, fun a hal ha => ?_, .inr ?_⟩
  · rw [Function.update_of_ne (qd.link_ne_scheduler (a := b) (by simp)).symm,
      Function.update_of_ne (ne hs)]
  · rw [Function.update_of_ne hbq.symm, Function.update_of_ne (ne qd.queue), qd.queue]
    cases us <;> rfl
  · rw [List.append_assoc, List.append_assoc]
    refine qd.linked.extend (fun d hd => ?_) (Function.update_self ..)
      (known_update (Function.update_self ..) (ne hb).symm)
    have hds : d ∈ us ++ [b] := by simp [hd]
    obtain ⟨x, next, e, -⟩ := qd.linked.known hds
    rw [Function.update_of_ne (apart d hd), Function.update_of_ne (ne e)]
  · have hab : a ≠ b := fun e => by simp [e, hb] at ha
    rwa [Function.update_of_ne hab, Function.update_of_ne hal]
  · rw [List.getLastD_concat]
    cases us with
    | nil => exact .inl rfl
    | cons d us =>
      obtain ⟨d', hd', u', found⟩ := qd.linked.before_last (by simp)
      exact .inr ⟨d', _, qd.link_ne_queue (List.mem_append_left _ hd'),
        known_update (known_update found (ne found)) (apart d' hd'),
        List.mem_of_getElem? (i := 1) rfl⟩

/-- The link comes to be the last one. -/
theorem Behind.close (k : Behind F s q links ts l v J) (qd : Queued F s q links ts)
    (fresh : F l = none) (runnable : ∀ t ∈ ts ++ [v], t ≠ .nil ∧ t ≠ l ∧ F t = none) :
    let J' := Function.update J q
      (some ⟨.queue, [links.length.toUInt64 + 1], [(links ++ [l]).headD .nil, l]⟩)
    Queued J' s q (links ++ [l]) (ts ++ [v]) ∧ ∀ a, a ≠ l → F a = none → J' a = none := by
  intro J'
  have hlq : l ≠ q := fun e => by simp [e, qd.queue] at fresh
  have only : ∀ a, a ≠ l → F a = none → J' a = none := by
    intro a hal ha
    have haq : a ≠ q := fun e => by simp [e, qd.queue] at ha
    exact (Function.update_of_ne haq ..).trans (k.only a hal ha)
  refine ⟨qd.extend fresh ?_ (Function.update_self ..) ?_ only runnable, only⟩
  · exact (Function.update_of_ne qd.queue_ne.symm ..).trans k.scheduler
  · refine k.linked.congr fun a ha => Function.update_of_ne ?_ ..
    rcases List.mem_append.1 ha with ha | ha
    · exact qd.link_ne_queue ha
    · exact List.mem_singleton.1 ha ▸ hlq

end Queued

theorem Queue.enqueueOwned_takes (o : Orderly K F (v ::ₘ O) 0 h) (own : Owns 0 (n + 1) (v ::ₘ C) h)
    (qd : Queued F s q links ts) (hv : h.HasTag .thread v) (idle : h.edges.count v = 0) :
    Yields (Queue.enqueueOwned q v) h fun _ h' => ∃ J l, h.isLive l = false ∧ Orderly K J O 0 h' ∧
      Queued J s q (links ++ [l]) (ts ++ [v]) ∧ Joins v h h' ∧ ∀ a, a ≠ l → F a = none →
      J a = none := by
  have runnable : ∀ l, h.isLive l = false → ∀ t ∈ ts ++ [v], t ≠ .nil ∧ t ≠ l ∧ F t = none := by
    intro l dead t ht
    have k : h.HasTag .thread t := by
      rcases List.mem_append.1 ht with ht | ht
      · exact qd.hasTag o ht
      · exact List.mem_singleton.1 ht ▸ hv
    exact ⟨o.sound.ne_nil k.isLive, fun e => by simp [← e, k.isLive] at dead, o.none_of_tag k rfl⟩
  have apart : ∀ {l a B}, h.isLive l = false → F a = some B → a ≠ l := fun dead hB e => by
    simp [e, o.none_of_dead dead] at hB
  refine enqueueOwned_yields
    (M := fun l back h₁ => h.isLive l = false ∧ back = links.getLastD .nil ∧
      Orderly K (Function.update F l (some ⟨.linkedList, [], [v, .nil]⟩)) (l ::ₘ O) 0 h₁ ∧
      Joins v h h₁ ∧ Owns 0 (n + 1) (l ::ₘ C) h₁)
    (N := fun l h₁ => h.isLive l = false ∧ ∃ J, Queued.Behind F s q links ts l v J ∧ J l ≠ none ∧
      Orderly K J (l ::ₘ O) 0 h₁ ∧ Joins v h h₁) ?made ?first ?behind ?closed
  case made =>
    refine ((Chain.createOwned_takes o own hv idle).and (Chain.createOwned_owns own).yields).mono ?_
    rintro l h₁ ⟨⟨dead, o₁, j₁⟩, own₁⟩ back run
    exact ⟨dead, o₁.child (known_update qd.queue (apart dead qd.queue)) rfl run, o₁, j₁, own₁⟩
  case first =>
    rintro l h₁ ⟨dead, last, o₁, j₁, own₁⟩
    obtain rfl := qd.eq_nil o last.symm
    have hl := Function.update_self l (some (⟨.linkedList, [], [v, .nil]⟩ : Body)) F
    have hq := known_update (o := some ⟨.linkedList, [], [v, .nil]⟩) qd.queue (apart dead qd.queue)
    refine (o₁.setChild own₁ hq rfl hl).mono fun _ h₂ ⟨o₂, l₂⟩ => ?_
    refine ⟨dead, _, qd.first (o.none_of_dead dead), ?_, o₂, j₁.trans l₂.joins⟩
    rw [Function.update_of_ne (apart dead qd.queue).symm, hl]
    simp
  case behind =>
    rintro l back h₁ ne_nil ⟨dead, rfl, o₁, j₁, own₁⟩
    rcases List.eq_nil_or_concat links with rfl | ⟨us, b, rfl⟩
    · exact absurd rfl ne_nil
    rw [List.concat_eq_append, List.getLastD_concat] at *
    obtain ⟨vs, u, -, hb⟩ := qd.linked.last
    have hl := Function.update_self l (some (⟨.linkedList, [], [v, .nil]⟩ : Body)) F
    have hb₁ := known_update (o := some ⟨.linkedList, [], [v, .nil]⟩) hb (apart dead hb)
    refine (o₁.setChild own₁ hb₁ rfl hl).mono fun _ h₂ ⟨o₂, l₂⟩ => ?_
    refine ⟨dead, _, qd.next (o.none_of_dead dead) hb, ?_, o₂, j₁.trans l₂.joins⟩
    rw [Function.update_of_ne (apart dead hb).symm, hl]
    simp
  case closed =>
    rintro l h₁ ⟨dead, J, behind, known, o₁, j₁⟩
    obtain ⟨qd', only⟩ := behind.close qd (o.none_of_dead dead) (runnable l dead)
    refine (Queue.closeBack_orderly o₁ behind.queue known behind.held).mono fun _ h₂ ⟨o₂, l₂⟩ => ?_
    exact ⟨_, l, dead, o₂, qd', j₁.trans l₂.joins, only⟩

namespace Scheduler

/-- A thread that is in no slot goes to the back of the queue. The link is new, so that no more is
known of what was there before. -/
theorem enqueue_takes (o : Orderly K F O 0 h) (own : Owns 0 (n + 2) C h)
    (qd : Queued F s q links ts)
    (hv : h.HasTag .thread v) (idle : h.edges.count v = 0) :
    Yields (enqueue s v) h fun _ h' => ∃ J l, Orderly K J O 0 h' ∧
      Queued J s q (links ++ [l]) (ts ++ [v]) ∧ Joins v h h' ∧
      ∀ a, a = .nil ∨ h.isLive a → F a = none → J a = none := by
  obtain ⟨id, hs⟩ := qd.scheduler
  refine .read fun q' run => ?_
  obtain rfl := o.child hs rfl run
  refine ((own.reference.yields.and (o.reference own (.inr (hv.personal rfl))))).heap.bind
    fun _ h₁ ⟨⟨_, own₁⟩, _, o₁, l₁, same⟩ => ?_
  have hv₁ : h₁.HasTag .thread v := same.2 hv
  refine (Queue.enqueueOwned_takes o₁ own₁ qd hv₁ (l₁.idle idle hv₁)).mono
    fun _ h₂ ⟨J, l, dead, o₂, qd₂, j₂, only⟩ => ⟨J, l, o₂, qd₂, l₁.joins.trans j₂, fun a ha => ?_⟩
  refine only a ?_
  rintro rfl
  rcases ha with rfl | hl
  · exact o₂.not_private_nil (.inl (qd₂.link_some (by simp)))
  · obtain ⟨t, k⟩ := Heap.isLive_iff_hasTag.1 hl
    rw [(same.2 k).isLive] at dead
    cases dead

end Scheduler

/-! ## The thread in front comes out -/

/-- The slots of a link hold a value and the next link. -/
theorem Heap.Linked.slots (k : Linked F links ts) (ha : a ∈ links) (hB : F a = some B)
    (hb : b ∈ B.children) : b ∈ ts ∨ b = .nil ∨ b ∈ links := by
  induction links generalizing ts with
  | nil => cases ha
  | cons d links ih =>
    cases ts with
    | nil => exact k.elim
    | cons u ts =>
      rcases List.mem_cons.1 ha with rfl | ha
      · obtain rfl : ⟨.linkedList, [], [u, links.headD .nil]⟩ = B := by simpa [k.1] using hB
        rcases List.mem_pair.1 hb with rfl | rfl
        · exact .inl (by simp)
        · cases links <;> simp
      · exact (ih k.2 ha).imp (List.mem_cons_of_mem u) (.imp_right (List.mem_cons_of_mem d))

/-- The front link, empty by now, is dropped. -/
theorem Queue.dropFront_orderly {w : UInt64} {next last : Address}
    (o : Orderly K F (next ::ₘ t ::ₘ l ::ₘ O) 0 h)
    (hq : F q = some ⟨.queue, [w], [.nil, last]⟩) (hl : F l = some ⟨.linkedList, [], [.nil, .nil]⟩)
    (hn : next = .nil ∨ F next ≠ none) (ne : l ≠ q) (apart : l ≠ next ∧ l ≠ last)
    (unheld : ∀ {d D}, d ≠ q → F d = some D → l ∉ D.children) (unowned : l ∉ t ::ₘ O) :
    Yields (dropFront q l next t) h fun r h' => r = t ∧
      Orderly K (Function.update (Function.update F l none) q
        (some ⟨.queue, [Stack.decrement w], [next, last]⟩)) (t ::ₘ O) 0 h' ∧ Later h h' := by
  have nl : l ≠ .nil := o.sound.ne_nil (o.isLive_of_private (.inl (by simp [hl])))
  have hidden : ¬h.HasTag .thread next := by
    rcases hn with rfl | hn
    · exact fun k => o.sound.ne_nil k.isLive rfl
    · obtain ⟨B, hB⟩ := Option.ne_none_iff_exists'.1 hn
      exact o.not_thread hB
  refine (o.setChildOwned hq rfl (.inl (o.nil_still hq)) (hn.imp_right .inl)).heap.bind
    fun _ h₁ ⟨o₁, j₁⟩ => ?_
  have here := Function.update_self q (some (⟨.queue, [w], [next, last]⟩ : Body)) F
  rw [Multiset.cons_swap] at o₁
  have o₁' := o₁.forget (known_update hl ne) (by simp) (fun {d D} hd => ?_) unowned
  · have freed : Yields (HeapM.free l) h₁ _ := fun _ _ run => o₁'.drain (l := [l]) run
    refine freed.heap.bind fun _ h₂ ⟨o₂, l₂, _⟩ => ?_
    rw [Function.update_comm ne.symm] at o₂
    have here₂ := Function.update_self q (some (⟨.queue, [w], [next, last]⟩ : Body))
      (Function.update F l none)
    refine .read fun w' run => ?_
    obtain rfl := o₂.field here₂ rfl run
    refine (o₂.setField here₂ Nat.zero_lt_one).heap.bind fun _ h₃ ⟨o₃, l₃⟩ => .pure ⟨rfl, ?_⟩
    rw [Function.update_idem] at o₃
    exact ⟨o₃, ((j₁.later hidden).trans l₂).trans l₃⟩
  · by_cases hdq : d = q
    · subst hdq
      obtain rfl : ⟨.queue, [w], [next, last]⟩ = D := by simpa [here] using hd
      simpa using apart
    · rw [Function.update_of_ne hdq] at hd
      exact unheld hdq hd

namespace Queued

/-- The front link `l` of a run queue has been emptied. The client has the link, its thread `t` and
the next link now, and nothing else has changed but the queue, with its last link. -/
structure Opened (K : Set Address) (F : Facts) (O : Multiset Address) (q l t : Address)
    (links : List Address) (last : Address) (h : Heap) (J : Facts) (h' : Heap) : Prop where
  orderly : Orderly K J (links.headD .nil ::ₘ t ::ₘ l ::ₘ O) 0 h'
  queue : J q = some ⟨.queue, [(l :: links).length.toUInt64], [.nil, last]⟩
  front : J l = some ⟨.linkedList, [], [.nil, .nil]⟩
  same : ∀ a, a ≠ q → a ≠ l → J a = F a
  later : Later h h'
  idle : h'.HasTag .thread t → h'.edges.count t = 0

/-- No link is nil, and the front link is none of the others. -/
theorem front_ne {L : Multiset Address} (qd : Queued F s q (l :: links) ts) (o : Orderly K F O L h)
    (ha : a = .nil ∨ a ∈ links) : l ≠ a := by
  rcases ha with rfl | ha
  · exact o.ne_nil (qd.link_some (by simp))
  · rintro rfl
    exact (List.nodup_cons.1 qd.nodup).1 ha

/-- The queue has no link in front, and gets none. -/
theorem dequeue_empty (qd : Queued F s q [] ts) (o : Orderly K F O 0 h) :
    Yields (Queue.dequeue q) h fun t h' => t = .nil ∧ Orderly K F (t ::ₘ O) 0 h' ∧ Later h h' := by
  refine Queue.dequeue_yields
    (A := fun front h₁ => front = .nil ∧ Orderly K F (front ::ₘ O) 0 h₁ ∧ Later h h₁)
    (B := fun _ _ _ _ => False) (C := fun _ _ _ _ => False) ?taken (fun there => there)
    (fun ne_nil there => absurd there.1 ne_nil) (fun never => never.elim) (fun _ never => never)
    (fun never => never.elim)
  refine (o.takeChild qd.queue rfl).mono fun front h₁ ⟨e, o₁, l₁, _⟩ => ⟨e, ?_, l₁⟩
  rwa [Function.update_eq_self_iff.2 qd.queue.symm, ← e] at o₁

/-- The front link comes out of the queue, and its thread and the next link out of the link. The
thread was in no other slot. -/
theorem takeLink {h₁ : Heap} (qd : Queued F s q (l :: links) (t :: ts)) (o : Orderly K F O 0 h)
    (o₁ : Orderly K (Function.update F q (some ⟨.queue, [(l :: links).length.toUInt64],
      [.nil, (l :: links).getLastD .nil]⟩)) (l ::ₘ O) 0 h₁) (l₁ : Later h h₁) :
    Yields (HeapM.takeChild l .linkedList 0) h₁ fun v h₂ =>
    Yields (HeapM.takeChild l .linkedList 1) h₂ fun b h₃ => v = t ∧ b = links.headD .nil ∧
      ∃ J, Opened K F O q l t links ((l :: links).getLastD .nil) h J h₃ := by
  have hl := qd.linked.1
  have hlq : l ≠ q := qd.link_ne_queue (by simp)
  have front := qd.runnable (List.mem_cons_self ..)
  have single := o.once (qd.hasTag o (List.mem_cons_self ..))
  refine (o₁.takeChild (known_update hl hlq) rfl).mono fun v h₂ ⟨e, o₂, l₂, moved⟩ => ?_
  subst v
  refine (o₂.takeChild (Function.update_self ..) rfl).mono fun b h₃ ⟨e, o₃, l₃, _⟩ => ?_
  subst b
  rw [Function.update_idem] at o₃
  refine ⟨rfl, rfl, _, o₃, ?_, Function.update_self .., fun a haq hal => ?_, (l₁.trans l₂).trans l₃,
    l₃.idle ?_⟩
  · exact known_update (Function.update_self ..) hlq.symm
  · rw [Function.update_of_ne hal, Function.update_of_ne haq]
  · -- the slot of the link was the only one that the thread was in
    have tq : t ≠ q := by
      rintro rfl
      simp [qd.queue] at front
    have unknown : ¬Function.update F q (some ⟨.queue, [(l :: links).length.toUInt64],
        [.nil, (l :: links).getLastD .nil]⟩) t ≠ none := by
      rw [Function.update_of_ne tq, front.2]
      exact fun k => k rfl
    have tagged := ((o₁.inner (known_update hl hlq) (List.mem_cons_self ..)).resolve_left
      front.1).resolve_left unknown
    have := moved front.1
    have := l₁.slots tagged
    omega

/-- Behind the last link there is no other. -/
theorem Opened.clear {h₁ : Heap} (k : Opened K F O q l t links l h J h₁) (hlq : l ≠ q) :
    Yields (HeapM.setChild q .queue 1 .nil) h₁ fun _ h₂ =>
      ∃ J', Opened K F O q l t links .nil h J' h₂ := by
  refine (k.orderly.clearChild k.queue rfl (.inr (.inl (by simp)))).mono fun _ h₂ ⟨o₂, l₂⟩ => ?_
  refine ⟨_, o₂, Function.update_self .., known_update k.front hlq, fun a haq hal => ?_,
    k.later.trans l₂, fun tagged => l₂.idle (k.idle (l₂.personal rfl tagged)) tagged⟩
  rw [Function.update_of_ne haq, k.same a haq hal]

/-- The run queue goes on with the next link. -/
theorem rest (qd : Queued F s q (l :: links) (t :: ts)) (few : links.length < 2 ^ 31)
    (same : ∀ a, a ≠ q → a ≠ l → J a = F a) :
    let J' := Function.update (Function.update J l none) q (some ⟨.queue,
      [Stack.decrement (l :: links).length.toUInt64], [links.headD .nil, links.getLastD .nil]⟩)
    Queued J' s q links ts ∧ ∀ a, F a = none → J' a = none := by
  intro J'
  obtain ⟨id, hs⟩ := qd.scheduler
  obtain ⟨hl, linked⟩ := qd.linked
  have nodup := List.nodup_cons.1 qd.nodup
  have hlq : l ≠ q := qd.link_ne_queue (by simp)
  have other : ∀ {a}, a ≠ q → a ≠ l → J' a = F a := fun haq hal => by
    rw [← same _ haq hal]
    exact (Function.update_of_ne haq ..).trans (Function.update_of_ne hal ..)
  have unknown : ∀ a, F a = none → J' a = none := by
    intro a ha
    have haq : a ≠ q := fun e => by simp [e, qd.queue] at ha
    have hal : a ≠ l := fun e => by simp [e, hl] at ha
    rw [other haq hal, ha]
  refine ⟨⟨⟨id, ?_⟩, ?_, ?_, nodup.2, fun ht => ?_, fun {a B} ha => ?_⟩, unknown⟩
  · rw [other qd.queue_ne.symm (qd.link_ne_scheduler (by simp)).symm, hs]
  · rw [← decrement_succ few]
    exact Function.update_self ..
  · refine linked.congr fun a ha => other (qd.link_ne_queue (List.mem_cons_of_mem l ha)) ?_
    rintro rfl
    exact nodup.1 ha
  · have out := qd.runnable (List.mem_cons_of_mem t ht)
    exact ⟨out.1, unknown _ out.2⟩
  · have known : F a ≠ none := fun e => by
      rw [unknown a e] at ha
      cases ha
    obtain ⟨C, hC⟩ := Option.ne_none_iff_exists'.1 known
    refine (qd.only hC).imp_right (.imp_right fun hm => (List.mem_cons.1 hm).resolve_left ?_)
    rintro rfl
    have gone : J' a = none := (Function.update_of_ne hlq ..).trans (Function.update_self ..)
    rw [gone] at ha
    cases ha

/-- The link is in no slot by now, is owned once, and goes. -/
theorem Opened.drop {h₁ : Heap} (k : Opened K F O q l t links (links.getLastD .nil) h J h₁)
    (qd : Queued F s q (l :: links) (t :: ts)) (o : Orderly K F O 0 h) (unowned : l ∉ O) :
    Yields (Queue.dropFront q l (links.headD .nil) t) h₁ fun r h' => r = t ∧
      ∃ J', Orderly K J' (t ::ₘ O) 0 h' ∧ Queued J' s q links ts ∧ Later h h' ∧
      (∀ a, F a = none → J' a = none) ∧ h'.HasTag .thread t ∧ h'.edges.count t = 0 := by
  obtain ⟨hl, linked⟩ := qd.linked
  have hlq : l ≠ q := qd.link_ne_queue (by simp)
  have front := qd.runnable (List.mem_cons_self ..)
  have first : links.headD .nil = .nil ∨ links.headD .nil ∈ links := by cases links <;> simp
  have last : links.getLastD .nil = .nil ∨ links.getLastD .nil ∈ links := by
    rcases List.eq_nil_or_concat links with rfl | ⟨us, b, rfl⟩
    · exact .inl rfl
    · rw [List.concat_eq_append, List.getLastD_concat]
      simp
  have few := (o.sound.length_le qd.nodup fun a ha =>
    o.isLive_of_private (.inl (qd.link_some ha))).2
  have not_thread : ∀ {a}, a ∈ t :: ts → a ≠ l := fun ha e => by
    simpa [e, hl] using (qd.runnable ha).2
  have known : links.headD .nil ∈ links → J (links.headD .nil) ≠ none := by
    intro ha
    rw [k.same _ (qd.link_ne_queue (List.mem_cons_of_mem l ha)) (qd.front_ne o (.inr ha)).symm]
    exact qd.link_some (List.mem_cons_of_mem l ha)
  have unheld : ∀ {d D}, d ≠ q → J d = some D → l ∉ D.children := by
    intro d D hdq hd hm
    by_cases hdl : d = l
    · obtain rfl : ⟨.linkedList, [], [.nil, .nil]⟩ = D := by simpa [hdl, k.front] using hd
      simp [qd.front_ne o (.inl rfl)] at hm
    rw [k.same d hdq hdl] at hd
    rcases qd.only hd with rfl | rfl | hdm
    · obtain ⟨id, hs⟩ := qd.scheduler
      obtain rfl : ⟨.scheduler, [id], [q]⟩ = D := by simpa [hs] using hd
      simp [hlq] at hm
    · exact hdq rfl
    · rcases linked.slots ((List.mem_cons.1 hdm).resolve_left hdl) hd hm with hm | hm
      · exact not_thread (List.mem_cons_of_mem t hm) rfl
      · exact qd.front_ne o hm rfl
  have lone : l ∉ t ::ₘ O := by simp [unowned, (not_thread (List.mem_cons_self ..)).symm]
  refine (Queue.dropFront_orderly k.orderly k.queue k.front (first.imp_right known) hlq
    ⟨qd.front_ne o first, qd.front_ne o last⟩ unheld lone).mono fun r h' ⟨e, o', l'⟩ => ?_
  obtain ⟨qd', unknown⟩ := qd.rest few k.same
  have tagged := o'.still_thread (k.later.trans l') (qd.hasTag o (List.mem_cons_self ..))
    (Multiset.mem_cons_self t O) front.1 (unknown t front.2)
  exact ⟨e, _, o', qd', k.later.trans l', unknown, tagged,
    l'.idle (k.idle (l'.personal rfl tagged)) tagged⟩

end Queued

theorem Queue.dequeue_gives (o : Orderly K F O 0 h) (qd : Queued F s q links ts)
    (unowned : ∀ l ∈ links, l ∉ O) :
    Yields (dequeue q) h fun t h' => t = ts.headD .nil ∧ ∃ J, Orderly K J (t ::ₘ O) 0 h' ∧
      Queued J s q links.tail ts.tail ∧ Later h h' ∧ (∀ a, F a = none → J a = none) ∧
      (t ≠ .nil → h'.HasTag .thread t ∧ h'.edges.count t = 0) := by
  cases links with
  | nil =>
    obtain rfl : ts = [] := List.length_eq_zero_iff.1 qd.linked.length_eq.symm
    exact (qd.dequeue_empty o).mono fun t h' ⟨e, o', l'⟩ =>
      ⟨e, F, o', qd, l', fun _ unknown => unknown, fun ne_nil => absurd e ne_nil⟩
  | cons l links =>
  cases ts with
  | nil => exact qd.linked.elim
  | cons t ts =>
  have hlq : l ≠ q := qd.link_ne_queue (by simp)
  refine dequeue_yields
    (A := fun front h₁ => front = l ∧ Orderly K (Function.update F q (some ⟨.queue,
      [(l :: links).length.toUInt64], [.nil, (l :: links).getLastD .nil]⟩)) (l ::ₘ O) 0 h₁ ∧
      Later h h₁)
    (B := fun front v b h₁ => front = l ∧ v = t ∧ b = links.headD .nil ∧
      ∃ J, Queued.Opened K F O q l t links ((l :: links).getLastD .nil) h J h₁)
    (C := fun front v b h₁ => front = l ∧ v = t ∧ b = links.headD .nil ∧
      ∃ J, Queued.Opened K F O q l t links (links.getLastD .nil) h J h₁)
    ?taken ?empty ?opened ?last ?more ?dropped
  case taken => exact (o.takeChild qd.queue rfl).mono fun front h₁ ⟨e, o₁, l₁, _⟩ => ⟨e, o₁, l₁⟩
  case empty => exact fun there => absurd there.1.symm (qd.front_ne o (.inl rfl))
  case opened =>
    rintro front h₁ _ ⟨rfl, o₁, l₁⟩
    exact (qd.takeLink o o₁ l₁).mono fun v h₂ took => took.mono fun b h₃ done => ⟨rfl, done⟩
  case last =>
    rintro front v h₁ ⟨rfl, rfl, e, J, opened⟩
    obtain rfl : links = [] := by
      cases links with
      | nil => rfl
      | cons b links => exact absurd e.symm (o.ne_nil (qd.link_some (a := b) (by simp)))
    exact (opened.clear hlq).mono fun _ h₂ cleared => ⟨rfl, rfl, rfl, cleared⟩
  case more =>
    rintro front v b h₁ other ⟨rfl, rfl, rfl, J, opened⟩
    refine ⟨rfl, rfl, rfl, J, ?_⟩
    cases links with
    | nil => exact absurd rfl other
    | cons => exact opened
  case dropped =>
    rintro front v b h₁ ⟨rfl, rfl, rfl, J, opened⟩
    refine (opened.drop qd o (unowned front (by simp))).mono ?_
    rintro r h' ⟨rfl, J', o', qd', l', unknown, tagged⟩
    exact ⟨rfl, J', o', qd', l', unknown, fun _ => tagged⟩

/-- The thread in front comes out of the queue. It is in no slot then. -/
theorem Scheduler.dequeue_gives (o : Orderly K F O 0 h) (qd : Queued F s q links ts)
    (unowned : ∀ l ∈ links, l ∉ O) :
    Yields (dequeue s) h fun t h' => t = ts.headD .nil ∧ ∃ J, Orderly K J (t ::ₘ O) 0 h' ∧
      Queued J s q links.tail ts.tail ∧ Later h h' ∧ (∀ a, F a = none → J a = none) ∧
      (t ≠ .nil → h'.HasTag .thread t ∧ h'.edges.count t = 0) := by
  obtain ⟨id, hs⟩ := qd.scheduler
  refine .read fun q' run => ?_
  obtain rfl := o.child hs rfl run
  exact Queue.dequeue_gives o qd unowned

namespace Scheduler

/-- The threads in the queue, as they are listed. -/
theorem threads_eq {L : Multiset Address} (o : Orderly K F O L h) (qd : Queued F s q links ts) :
    threads s h = .ok ts := by
  obtain ⟨id, hs⟩ := qd.scheduler
  refine query_bind_ok.2 ⟨q, o.sound.child_body (o.body hs) rfl, ?_⟩
  refine query_bind_ok.2 ⟨_, o.sound.child_body (o.body qd.queue) rfl, ?_⟩
  exact qd.linked.values o.sound o.body qd.nodup

/-- The next thread number does not matter to the queue. -/
theorem nextId_counts (o : Orderly K F O 0 h) (qd : Queued F s q links ts) :
    Yields (nextId s) h fun _ h' => ∃ J, Orderly K J O 0 h' ∧ Queued J s q links ts ∧ Later h h' ∧
      ∀ a, F a = none → J a = none := by
  obtain ⟨id, hs⟩ := qd.scheduler
  refine .read fun id' _ => (o.setField hs Nat.zero_lt_one).heap.bind fun _ h₁ ⟨o₁, l₁⟩ => .pure ?_
  have none_of : ∀ a, F a = none → Function.update F s (some ⟨.scheduler, [id' + 1], [q]⟩)
    a = none :=
    fun a ha => by
      rwa [Function.update_of_ne]
      rintro rfl
      simp [hs] at ha
  refine ⟨_, o₁, ⟨⟨_, Function.update_self ..⟩, known_update qd.queue qd.queue_ne, ?_, qd.nodup,
    fun ht => (qd.runnable ht).imp_right (none_of _), fun {a B} ha => ?_⟩, l₁, none_of⟩
  · exact qd.linked.congr fun a ha => Function.update_of_ne (qd.link_ne_scheduler ha) ..
  · by_cases has : a = s
    · exact .inl has
    · rw [Function.update_of_ne has] at ha
      exact qd.only ha

end Scheduler
end GoMachine
