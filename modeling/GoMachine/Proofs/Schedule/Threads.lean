import GoMachine.Machine
import GoMachine.Proofs.Owns.Calls
import GoMachine.Proofs.Schedule.Round
/-!
# New threads

A new thread is in no slot until it goes to the back of the run queue. It was nothing before, so
that it is none of the threads that the machine held.
-/
namespace GoMachine

open Heap (Orderly Later Owns Guards Secure laden)

variable {R : Round} {O P B C : Multiset Address} {G F : Facts} {us c d links new : List Address}
  {h h' : Heap} {n i : Nat} {a b t u v frame structs : Address} {id : UInt64} {tag : Tag}

namespace Round
namespace Shows

/-- A new record of a thread, which the machine holds. -/
theorem allocate {fields children : Nat} (sh : R.Shows O us c h F links new) (own : Owns 0 n C h)
    (ht : tag.isPersonal) (safe : ∀ a ∈ c, a = .nil ∨ h.isLive a) :
    Yields (HeapM.allocate tag fields children) h fun a h' =>
    R.Shows (a ::ₘ O) us c h' F links new ∧
      h'.HasTag tag a ∧ h'.edges.count a = 0 ∧ h.isLive a = false := by
  intro a h' run
  obtain ⟨dead, tagged, o, zero, kept, count⟩ := sh.orderly.allocate own (.inl ⟨rfl, ht⟩) run
  have ne : ∀ {b}, h.isLive b → b ≠ a := by
    rintro b hl rfl
    rw [hl] at dead
    cases dead
  refine ⟨⟨o, sh.queued, sh.joined, fun x hx => ?_, fun u hu => ?_, fun x hx =>
    (sh.base x hx).imp_left Multiset.mem_cons_of_mem⟩, tagged, zero, dead⟩
  · have plain := sh.plain x hx
    refine ⟨plain.1, fun hp => plain.2 (hp.imp_right fun ⟨t, ht, k⟩ => ⟨t, ht, (kept ?_).1 k⟩)⟩
    rcases safe x hx with rfl | hl
    · exact (o.sound.ne_nil tagged.isLive).symm
    · exact ne hl
  · obtain ⟨ho, k, zero⟩ := sh.idle u hu
    exact ⟨Multiset.mem_cons_of_mem ho, (kept (ne k.isLive)).2 k,
      (count u (sh.orderly.sound.ne_nil k.isLive)).trans zero⟩

/-- A slot of a thread is filled. -/
theorem fill (sh : R.Shows P us c h F links new) (mine : P = b ::ₘ O ∨ P = O ∧ h.Plain F b)
    (keep : ∀ a ∈ R.base, a ∈ O) (fits : h.Fits R.parked F .thread i b)
    (other : ¬h.HasTag .thread b) :
    Yields (HeapM.setChildOwned a .thread i b) h fun _ h' => R.Shows O us c h' F links new := by
  refine (sh.orderly.fillChild mine rfl fits fun k => absurd k other).mono fun _ h' ⟨o, j⟩ =>
    sh.later o (j.later other) (fun u hu ho => ?_) fun a ha => j.plain (sh.plain a ha)
  rcases hu with hu | hu
  · rcases mine with rfl | ⟨rfl, -⟩
    · refine (Multiset.mem_cons.1 ho).resolve_left ?_
      rintro rfl
      exact other (sh.idle u hu).2.1
    · exact ho
  · exact keep u hu

end Shows
end Round

theorem Env.create_tame (hf : frame ∈ .nil :: c) (hs : structs ∈ .nil :: c) :
    Tame c (Env.create frame structs) := by
  unfold Env.create
  refine .bind ?_ fun env => .bind ?_ fun _ => .bind ?_ fun _ => ?_ <;> grind

namespace Thread

theorem create_shows (g : Guards G B (n + 1) P h) (sh : R.Shows O us c h F links new)
    (hf : frame ∈ .nil :: c) (hs : structs ∈ .nil :: c) (sec : ∀ a ∈ c, Secure G B a) :
    Yields (create id frame structs) h fun t h' =>
      R.Shows (t ::ₘ O) (t :: us) c h' F links new ∧ h.isLive t = false := by
  refine ((sh.allocate g.owns rfl fun a ha => g.live (sec a ha)).and g.allocate).heap.bind ?_
  rintro t h₁ ⟨⟨sh₁, tagged, zero, dead⟩, g₁, unknown⟩
  have sh₁ : R.Shows (t ::ₘ O) (t :: us) c h₁ F links new :=
    { sh₁ with idle := List.forall_mem_cons.2 ⟨⟨by simp, tagged, zero⟩, sh₁.idle⟩ }
  have keep : ∀ a ∈ R.base, a ∈ t ::ₘ O := fun a ha => Multiset.mem_cons_of_mem (sh.base a ha).1
  refine (Yields.orRelease (Q := fun _ h' => R.Shows (t ::ₘ O) (t :: us) c h' F links new) ?_).bind
    fun _ h₂ sh => .pure ⟨sh, dead⟩
  refine ((sh₁.kept (Tame.heap (.setField (.inl rfl)) sh₁.orderly sh₁.plain)).and
    (g₁.setField (by simp [unknown])).heap).bind ?_
  rintro _ h₂ ⟨sh₂, g₂⟩
  refine ((sh₂.allocate g₂.owns rfl fun a ha => g₂.live (sec a ha)).and g₂.allocate).heap.bind ?_
  rintro control h₃ ⟨⟨sh₃, tagged, -, -⟩, g₃, -⟩
  refine ((sh₃.fill (i := 0) (.inl rfl) keep (by simp [Heap.Fits, tagged]) fun k => by
    cases k.unique tagged).and
    (g₃.setChildOwned (by simp [unknown]))).heap.bind ?_
  rintro _ h₄ ⟨sh₄, g₄⟩
  refine ((sh₄.allocate g₄.owns rfl fun a ha => g₄.live (sec a ha)).and g₄.allocate).heap.bind ?_
  rintro stash h₅ ⟨⟨sh₅, tagged, -, -⟩, -⟩
  refine (sh₅.fill (i := 1) (.inl rfl) keep (by simp [Heap.Fits, tagged])
    fun k => by cases k.unique tagged).heap.bind fun _ h₆ sh₆ => ?_
  refine (sh₆.kept (Env.create_tame hf hs sh₆.orderly sh₆.plain)).bind fun env h₇ sh₇ => ?_
  have plain := sh₇.plain env (by simp)
  exact (sh₇.fill (i := 2) (.inr ⟨rfl, plain⟩) keep (by simpa [Heap.Fits] using plain.2)
    (plain.not_hasTag rfl)).heap.mono fun _ _ sh =>
      { sh with plain := fun a ha => sh.plain a (by simp [ha]) }

/-- The frames stay while the new thread is made, as they are those of a thread that is held. -/
theorem fork_stands (own : Owns 0 (n + 1) C h) (st : R.Stands O us c h) (ht : t ∈ C)
    (sec : ∀ a ∈ c, a = .nil ∨ a ∈ C) :
    Yields (fork t id) h fun u h' => R.Stands (u ::ₘ O) (u :: us) c h' ∧ h.isLive u = false := by
  refine .read fun env run => .read fun frame run' => .read fun structs run'' => ?_
  obtain ⟨G₁, g, hold₁, stays₁⟩ :=
    (Guards.none_iff.2 own).learn_child (Heap.secure_none.2 (.inr ht))
    rfl (ofHeap_ok (q := (·.child t .thread 2)).1 run |> ofHeap_ok.2)
  obtain ⟨G₂, g, hold₂, stays₂⟩ := g.learn_child hold₁ (t := .env) rfl run'
  obtain ⟨G, g, hold₃, stays₃⟩ := g.learn_child (stays₂ hold₁) (t := .env) rfl run''
  obtain ⟨F, links, new, sh⟩ :=
    ((st.asks env_asks run).asks Env.frame_asks run').asks Env.structs_asks run''
  have sh : R.Shows O us (structs :: frame :: c) h F links new :=
    { sh with plain := fun a ha => sh.plain a (by grind) }
  refine (create_shows ⟨g, (Guards.none_iff.2 own).spare⟩ sh (by simp) (by simp) ?_).mono
    fun u h' ⟨sh, dead⟩ =>
    ⟨⟨F, links, new, { sh with plain := fun a ha => sh.plain a (by simp [ha]) }⟩, dead⟩
  refine List.forall_mem_cons.2 ⟨hold₃, List.forall_mem_cons.2 ⟨stays₃ hold₂, fun a ha => ?_⟩⟩
  exact stays₃ (stays₂ (stays₁ (Heap.secure_none.2 (sec a ha))))

end Thread
/-- The next thread number changes nothing else. -/
theorem Scheduler.nextId_stands (st : R.Stands O us c h) :
    Yields (nextId R.scheduler) h fun _ h' => R.Stands O us c h' := by
  obtain ⟨F, links, new, sh⟩ := st
  refine (nextId_counts sh.orderly sh.queued).mono fun _ h' ⟨J, o, qd, l, none_of⟩ =>
    ⟨J, links, new, o, qd, sh.joined, fun a ha => ?_, fun u hu => ?_, fun a ha =>
      (sh.base a ha).imp_right (.imp_right (none_of a))⟩
  · have plain := l.plain (sh.plain a ha)
    exact ⟨plain.1, fun hp => plain.2 (hp.imp_left fun k e => k (none_of a e))⟩
  · obtain ⟨ho, k, zero⟩ := sh.idle u hu
    have k' := o.still_thread l k ho (sh.orderly.sound.ne_nil k.isLive)
      (none_of u (sh.orderly.none_of_tag k rfl))
    exact ⟨ho, k', l.idle zero k'⟩

namespace Round.Stands

/-- A thread that was nothing before goes to the back of the queue. -/
theorem enqueue_new (st : R.Stands O (u :: us) c h) (own : Owns 0 (n + 2) C h) (fresh : u ∉ R.base)
    (apart : u ∉ us) (safe : ∀ a ∈ c, a = .nil ∨ h.isLive a) :
    Yields (Scheduler.enqueue R.scheduler u) h fun _ h' =>
      R.Stands O us c h' ∧ h'.HasTag .thread u := by
  obtain ⟨F, links, new, sh⟩ := st
  obtain ⟨-, k, zero⟩ := sh.idle u (by simp)
  exact (sh.enqueue own k zero (.inr fresh) (fun v hv => ⟨by simp [hv], fun e => apart (e ▸ hv)⟩)
    safe).mono
    fun _ _ ⟨J, l, sh⟩ => ⟨⟨J, _, _, sh⟩, sh.queued.hasTag sh.orderly (by simp)⟩

theorem ne_nil (st : R.Stands O (u :: us) c h) : u ≠ .nil := by
  obtain ⟨F, links, new, sh⟩ := st
  exact sh.orderly.sound.ne_nil (sh.idle u (by simp)).2.1.isLive

/-- What was nothing was not held. -/
theorem not_mem (st : R.Stands O us c h) (dead : h.isLive u = false) (hn : u ≠ .nil) : u ∉ O ∧
    u ∉ us := by
  obtain ⟨F, links, new, sh⟩ := st
  refine ⟨fun ho => ?_, fun hu => ?_⟩
  · exact sh.orderly.not_private_of_dead dead ((sh.orderly.owned ho).resolve_left hn)
  · rw [(sh.idle u hu).2.1.isLive] at dead
    cases dead

/-- A thread that is queued is not held any more. -/
theorem free (st : R.Stands (u ::ₘ O) us c h) (apart : u ∉ us) (keep : ∀ a ∈ R.base, a ∈ O)
    (thread : h.HasTag .thread u) :
    Yields (HeapM.free u) h fun _ h' => R.Stands O us c h' := by
  obtain ⟨F, links, new, sh⟩ := st
  refine (sh.orderly.free (.inl (sh.orderly.none_of_tag thread rfl))).mono fun _ h' ⟨o, l⟩ =>
    ⟨F, links, new, sh.later o l (fun v hv ho => ?_) fun a ha => l.plain (sh.plain a ha)⟩
  rcases hv with hv | hv
  · exact (Multiset.mem_cons.1 ho).resolve_left fun e => apart (e ▸ hv)
  · exact keep v hv

end Round.Stands

namespace Machine

/-- The new thread takes the operands and joins the queue. -/
theorem spawn_stands {argc : UInt64} {operands : List Address}
    (own : Owns 0 (n + 2) (laden operands C) h) (st : R.Stands R.base us operands h) (ht : t ∈ C) :
    Yields (spawn R.scheduler t argc operands) h fun _ h' => R.Stands R.base us [] h' := by
  refine ((Scheduler.nextId_stands st).and (Scheduler.nextId_owns own).yields).bind
    fun id h₁ ⟨st, own⟩ => ?_
  refine ((Thread.fork_stands own st (Heap.mem_laden.2 (.inr ht)) fun a ha =>
    .inr (Heap.mem_laden.2 (.inl ha))).and
    (Thread.fork_owns own).yields).bind fun fork h₂ ⟨⟨st₂, dead⟩, own⟩ => .read fun stash run => ?_
  obtain ⟨fresh, apart⟩ := st.not_mem dead st₂.ne_nil
  refine (Yields.forIn (I := fun rest h' => rest ⊆ operands ∧
    Owns 0 (n + 2) (laden rest (fork ::ₘ C)) h' ∧
    R.Stands (fork ::ₘ R.base) (fork :: us) operands h' ∧ Query.child fork .thread 1 h' = .ok stash)
    ⟨List.Subset.refl _, own.lade, st₂, run⟩ ?_).bind fun _ h₃ ⟨_, own, st, _⟩ =>
    .read fun control run => ?_
  · intro value rest h ⟨sub, own, st, run⟩
    refine ((Stack.pushOwned_owns own).yields.and
      (st.pushOwned_child (by simp) (i := 1) (by decide) run
      (by simp [sub (List.mem_cons_self ..)]))).bind fun _ _ ⟨own, st, run⟩ => .pure ?_
    exact ⟨rfl, fun a ha => sub (List.mem_cons_of_mem _ ha), own, st, run⟩
  refine ((st.tame_child (Node.unit_tame rfl) (by simp) run).and (Node.unit_owns own).yields).bind
    fun pop h₄ ⟨⟨st, run⟩, own⟩ => ?_
  refine ((Stack.pushOwned_owns own).yields.and
    (st.pushOwned_child (by simp) (i := 0) (by decide) run
    (by simp))).bind fun _ h₅ ⟨own, st, run⟩ => ?_
  refine ((st.tame_child (Node.build_tame rfl rfl (List.nil_subset _)) (by simp) run).and
    (Node.build_owns (l := []) own).yields).bind fun call h₆ ⟨⟨st, run⟩, own⟩ => ?_
  refine ((Stack.pushOwned_owns own).yields.and
    (st.pushOwned (i := 0) (by decide) run (by simp))).bind
    fun _ h₇ ⟨own, st⟩ => ?_
  refine ((st.mono (List.nil_subset _)).enqueue_new own fresh apart (by simp)).bind
    fun _ h₈ ⟨st, thread⟩ => (st.free apart (fun _ ha => ha) thread).heap

/-- The main thread joins the queue with its first node. -/
theorem start_stands {node : Address} (own : Owns 0 (n + 2) (node ::ₘ C) h)
    (st : R.Stands R.base us [node, a] h) (ha : a ∈ C) :
    Yields (start R.scheduler a node) h fun t h' =>
      R.Stands (t ::ₘ R.base) us [] h' ∧ h'.HasTag .thread t := by
  refine ((Scheduler.nextId_stands st).and (Scheduler.nextId_owns own).yields).bind
    fun id h₁ ⟨st, own⟩ => ?_
  have made : Yields (Thread.create id a a) h₁ fun t h' =>
      R.Stands (t ::ₘ R.base) (t :: us) [node, a] h' ∧ h₁.isLive t = false := by
    obtain ⟨F, links, new, sh⟩ := st
    refine (Thread.create_shows (Guards.none_iff.2 own) sh (by simp) (by simp) fun b hb => ?_).mono
      fun t h' ⟨sh, dead⟩ => ⟨⟨F, links, new, sh⟩, dead⟩
    refine Heap.secure_none.2 (.inr ?_)
    rcases List.mem_pair.1 hb with rfl | rfl <;> simp [ha]
  refine (made.and (Thread.create_owns own).yields).bind fun main h₂ ⟨⟨st₂, dead⟩, own⟩ => ?_
  obtain ⟨fresh, apart⟩ := st.not_mem dead st₂.ne_nil
  refine .read fun control run => ?_
  refine ((Stack.pushOwned_owns own.swap).yields.and
    (st₂.pushOwned (i := 0) (by decide) run (by simp))).bind
    fun _ h₃ ⟨own, st⟩ => ?_
  exact ((st.mono (List.nil_subset _)).enqueue_new own fresh apart (by simp)).bind
    fun _ h₄ ⟨st, thread⟩ => .pure ⟨st, thread⟩

end Machine
end GoMachine
