import GoMachine.Proofs.Heap.Collect
import GoMachine.Proofs.Schedule.RunQueue
/-!
# The run queue and collections

A collection whose roots have the scheduler and what the machine holds of the scheduler's records
and of threads keeps the run queue as it is: the links of the queue are reached from the scheduler,
and so is each thread in it. What it releases are threads that nobody can wake any more, with their
wakers.

* `Queued.leads`: all that keeps runnable threads is reached from the scheduler.
* `Orderly.markAndSweep`: a collection leaves the scheduler alone.
-/
namespace GoMachine
namespace Heap

variable {K : Set Address} {F : Facts} {C O : Multiset Address} {h h₁ h' : Heap}
  {a s q : Address} {links ts roots : List Address}

theorem Points.of_body (o : Orderly K F O 0 h) {B : Body} {b : Address} (hB : F a = some B)
    (hb : b ∈ B.children) : h.Points a b := by
  obtain ⟨c, hc, rfl⟩ := o.cell hB
  exact ⟨c, hc, hb⟩

/-- The first link leads to all of them. -/
theorem Linked.leads (k : Linked F links ts) (o : Orderly K F O 0 h) (ha : a ∈ links) :
    h.Leads (links.headD .nil) a := by
  induction links generalizing ts with
  | nil => cases ha
  | cons l links ih =>
    cases ts with
    | nil => exact k.elim
    | cons t ts =>
      rcases List.mem_cons.1 ha with rfl | ha
      · exact .refl
      · exact .head (.of_body o k.1 (by simp)) (ih k.2 ha)

end Heap

open Heap (Orderly Later Exact Leads Points)

variable {K : Set Address} {F : Facts} {C O : Multiset Address} {h h₁ h' : Heap}
  {a s q : Address} {links ts roots : List Address}

/-- The scheduler leads to its queue and to the links of it. -/
theorem Queued.leads (qd : Queued F s q links ts) (o : Orderly K F O 0 h) (ha : F a ≠ none) :
    h.Leads s a := by
  obtain ⟨B, hB⟩ := Option.ne_none_iff_exists'.1 ha
  obtain ⟨id, hs⟩ := qd.scheduler
  have queue : h.Points s q := .of_body o hs (by simp)
  rcases qd.only hB with rfl | rfl | hl
  · exact .refl
  · exact .single queue
  · exact .head queue (.head (.of_body o qd.queue (by simp)) (qd.linked.leads o hl))

namespace Heap.Orderly

/-- Records that nothing kept leads into are taken off the heap. What they held is loose. -/
theorem swept (o : Orderly K F O 0 h) {garbage : Std.TreeSet Nat} (sound : h₁.Sound)
    (sub : ∀ i ∈ garbage, i ∈ h.live)
    (cells : ∀ a : Address, h₁.cell? a = if a.index ∈ garbage then none else h.cell? a)
    (closed : ∀ {a c b}, h₁.cell? a = some c → b ∈ c.children → b.index ∉ garbage)
    (known : ∀ {a}, F a ≠ none → a.index ∉ garbage) (owned : ∀ a ∈ O, a.index ∉ garbage) :
    Orderly K F O (h.outgoing garbage) h₁ ∧ Later h h₁ := by
  have survivor : ∀ {a c}, h₁.cell? a = some c → a.index ∉ garbage ∧ h.cell? a = some c := by
    intro a c hc
    rw [cells] at hc
    split_ifs at hc with hg
    exact ⟨hg, hc⟩
  have old : ∀ {t a}, h₁.HasTag t a → a.index ∉ garbage ∧ h.HasTag t a := by
    rintro t a ⟨c, hc, ht⟩
    exact ⟨(survivor hc).1, c, (survivor hc).2, ht⟩
  have still : ∀ {t a}, a.index ∉ garbage → h.HasTag t a → h₁.HasTag t a := by
    rintro t a hg ⟨c, hc, ht⟩
    exact ⟨c, by rwa [cells, if_neg hg], ht⟩
  have edges : ∀ {a}, a.index ∉ garbage →
      h.edges.count a = (h.outgoing garbage).count a + h₁.edges.count a :=
    fun hg => edges_swept sub cells hg
  have personal : ∀ {a}, h₁.Personal a → h.Personal a := fun ⟨t, ht, k⟩ => ⟨t, ht, (old k).2⟩
  refine ⟨⟨sound, fun {a B} hB => ?_, o.internal, o.held, fun {a} ha => ?_, fun {a c} hp hc => ?_,
    fun {a c i b} hc hn hb => ?_, fun {a B b} hB hb => ?_, fun {u} k => ?_⟩,
    fun ht k => (old k).2, fun k => ?_⟩
  · have hg := known (a := a) (by simp [hB])
    rw [body?, cells, if_neg hg]
    exact o.body hB
  · refine (o.owned ha).imp_right (Or.imp_right fun ⟨t, ht, k⟩ => ⟨t, ht, still (owned a ha) k⟩)
  · obtain ⟨hg, hc⟩ := survivor hc
    rw [o.count (hp.imp_right personal) hc, Multiset.count_add, Multiset.count_add, edges hg,
      Multiset.count_add, Multiset.count_add, Multiset.coe_count, Multiset.count_zero]
    omega
  · have hg := closed hc (List.mem_of_getElem? hb)
    exact (o.fits (survivor hc).2 hn hb).mono (le_refl K) id personal fun _ => still hg
  · obtain ⟨c, hc, rfl⟩ := o.cell hB
    have hg : b.index ∉ garbage := by
      refine closed (a := a) (c := c) ?_ hb
      rwa [cells, if_neg (known (by simp [hB]))]
    exact (o.inner hB hb).imp_right (Or.imp_right (still hg))
  · obtain ⟨hg, k⟩ := old k
    have := edges hg
    have := o.once k
    omega
  · have := edges (old k).1
    omega

/-- A collection keeps what the roots lead to, so it leaves the scheduler alone. -/
theorem markAndSweep {k : Nat} (o : Orderly K F O 0 h) (exact : Exact 0 C h)
    (cover : ∀ a ∈ C, a ∈ roots)
    (owned : ∀ a ∈ O, a ∈ roots) (known : ∀ {a}, F a ≠ none → ∃ r ∈ roots, h.Leads r a)
    (run : HeapM.markAndSweep roots h = .ok k h') : Orderly K F O 0 h' ∧ Later h h' := by
  obtain ⟨h'', run', -, -, h₁, s₁, cells, drained⟩ := exact.markAndSweep cover
  rw [run] at run'
  cases run'
  obtain ⟨sub, out, closed⟩ := unreached_closed (h := h) h.live (h.pinned ++ roots)
  have reached : ∀ {a}, F a ≠ none → a.index ∉ h.unreached h.live (h.pinned ++ roots) := by
    intro a ha hg
    obtain ⟨r, hr, leads⟩ := known ha
    exact (mem_unreached.1 hg).2 ⟨r, List.mem_append_right _ hr, leads⟩
  generalize h.unreached h.live (h.pinned ++ roots) = garbage at *
  obtain ⟨o₁, l₁⟩ := o.swept s₁ sub cells (fun {a c b} hc hb => by
      rw [cells] at hc
      split_ifs at hc with hg
      obtain ⟨hl, rfl⟩ := cell?_eq_some.1 hc
      exact closed _ (isLive_iff.1 hl) hg b hb) reached
    fun a ha => out a (List.mem_append_right _ (owned a ha))
  rw [← Multiset.coe_eq_coe.2 (List.reverse_perm (h.outgoing garbage))] at o₁
  obtain ⟨o', l, -⟩ := o₁.drain drained
  exact ⟨o', l₁.trans l⟩

end Heap.Orderly
end GoMachine
