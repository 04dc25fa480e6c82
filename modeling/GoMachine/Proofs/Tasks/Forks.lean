import GoMachine.Proofs.Tasks.Calls
/-!
# New threads

The record of a thread is filled slot by slot with two empty stacks and an environment, which show
that the thread has nothing to do yet in the frames that it starts in.

* `Knows.newThread`: a thread is made.
-/
namespace GoMachine

open Heap (laden)

variable {ρ : Roles} {k : Known} {σ : Address → Task} {n : Nat} {O : Multiset Address} {h : Heap}
    {F : Facts}
  {a b c e f t u : Address} {B D : Body} {τ : Task} {fs : List UInt64} {cs line : List Address}
  {tag : Tag} {i : Nat}
  {r : Role} {vs : List Address}

theorem Env.create_eq {frame structs : Address} : Env.create frame structs = Node.buildShared .env
    [] [frame, structs] := by
  simp [Env.create, Node.buildShared, Node.setFields]

/-- What the slots of the record of a thread show. -/
structure Parts (F : Facts) (ρ : Roles) (cs : List Address) (τ : Task) : Prop where
  intro ::
  slots : ∃ c s e, cs = [c, s, e] ∧ Stacked F c .control (τ.control.map Entry.node) ∧
  Stacked F s .stash τ.stash ∧
    Scoped F ρ e τ.line
  codes : ∀ e ∈ τ.control, ρ e.node = .code e.code
  filled : τ.made → .nil ∉ cs

/-- A stack is made that was still to be made. -/
theorem Parts.addStack {p : Pile} {st : Address} (parts : Parts F ρ cs τ)
    (hst : F st = some ⟨p.tag, [0], [.nil]⟩)
    (notNil : st ≠ .nil) (empty : τ.pile p = []) : Parts F ρ (cs.set p.index st) τ := by
  obtain ⟨⟨c, s, e, rfl, hc, hs, he⟩, codes, filled⟩ := parts
  have made : Stacked F st p.tag (τ.pile p) :=
    .inr ⟨.nil, by rw [hst, empty]; rfl, by rw [empty]; rfl⟩
  cases p with
  | control =>
      exact ⟨⟨st, s, e, rfl, made, hs, he⟩, codes, fun whole mem =>
        (List.mem_or_eq_of_mem_set mem).elim (filled whole) notNil.symm⟩
  | stash =>
      exact ⟨⟨c, st, e, rfl, hc, made, he⟩, codes, fun whole mem =>
        (List.mem_or_eq_of_mem_set mem).elim (filled whole) notNil.symm⟩

namespace Shows

/-- A thread shows what it has in its slots, whatever its record says besides. -/
theorem of_parts (parts : Parts F ρ cs τ) (hu : F u = some B) (ht : B.tag = .thread) :
    Shows (Function.update F u (some ⟨.thread, fs, cs⟩)) ρ u τ := by
  obtain ⟨⟨c, s, e, rfl, hc, hs, he⟩, codes, filled⟩ := parts
  have still : ∀ {b D}, F b = some D → D.tag ≠ .thread →
    Function.update F u (some ⟨.thread, fs, [c, s, e]⟩) b = some D := by
    intro b D hb other
    rw [Function.update_of_ne, hb]
    rintro rfl
    exact other (Option.some_inj.1 (hb.symm.trans hu) ▸ ht)
  have stacked : ∀ {a t vs}, t ≠ .thread → Stacked F a t vs →
    Stacked (Function.update F u (some ⟨.thread, fs, [c, s, e]⟩)) a t vs := by
    intro a t vs other h
    refine h.imp_right fun ⟨top, ha, lists⟩ => ⟨top, still ha other, lists.congr fun hy tag => ?_⟩
    rw [hy]
    exact still hy (by simp [tag])
  refine ⟨⟨fs, c, s, e, Function.update_self .., stacked (by simp) hc, stacked (by simp) hs, ?_⟩,
    codes, fun made D hD => ?_⟩
  swap
  · rw [Function.update_self, Option.some_inj] at hD
    exact hD ▸ filled made
  exact he.imp_right fun ⟨f, structs, ha, on⟩ => ⟨f, structs, still ha (by simp), on⟩

theorem parts (s : Shows F ρ u τ) (hu : F u = some ⟨.thread, fs, cs⟩) : Parts F ρ cs τ := by
  obtain ⟨⟨fs', c, st, e, hu', rest⟩, codes, filled⟩ := s
  obtain ⟨-, rfl⟩ : fs = fs' ∧ cs = [c, st, e] := by simpa [hu] using hu'
  exact ⟨⟨c, st, e, rfl, rest⟩, codes, fun made => filled made _ hu⟩

end Shows

namespace Sees

/-- The record of a thread changes. -/
theorem rewrite (s : Sees ρ σ F) (hu : F u = some B) (role : ρ u = .thread) (conf : Conforms ρ u D)
    (shows : Shows (Function.update F u (some D)) ρ u τ) (place : (σ u).SamePlace τ) :
    Sees ρ (Function.update σ u τ) (Function.update F u (some D)) :=
  ⟨s.toTells.rewrite hu conf (.inr ⟨rfl, role⟩) (fun _ _ => shows) place,
    s.lined_write (by simp [role, Role.IsQueue])
    (Task.queued_update (by rw [place.2.2.1]; exact id))⟩

/-- The record of a thread is filled. -/
theorem finish (s : Sees ρ σ F) (hu : F u = some ⟨.thread, fs, cs⟩) (filled : .nil ∉ cs) :
    Sees ρ (Function.update σ u { σ u with made := true }) F := by
  have same : ∀ v, (Function.update σ u { σ u with made := true } v).place = (σ v).place ∧
      (Function.update σ u { σ u with made := true } v).waits = (σ v).waits ∧
      (Function.update σ u { σ u with made := true } v).offers = (σ v).offers := fun v => by
    by_cases e : v = u
    · subst e
      rw [Function.update_self]
      exact ⟨rfl, rfl, rfl⟩
    · simp [Function.update_of_ne e]
  refine ⟨⟨s.nil, s.dead, s.conforms, fun {v B} hB role => ?_, fun {x B v w} hx hv there keeps =>
    ?_, fun {x w b v} h => ?_⟩,
    s.lined_of (fun hq role => ⟨hq, role⟩) (fun _ _ => rfl) (Task.queued_update id)⟩
  · by_cases e : v = u
    · subst e
      obtain ⟨record, codes, -⟩ := s.shows hu role
      rw [Function.update_self]
      exact ⟨record, codes, fun _ D hD => Option.some_inj.1 (hu.symm.trans hD) ▸ filled⟩
    · rw [Function.update_of_ne e]
      exact s.shows hB role
  · rw [(same v).1, (same v).2.1]
    exact s.place hx hv there keeps
  · rw [(same v).2.2]
    exact s.offered h

end Sees

namespace Knows

/-- The record of a new thread comes up. -/
theorem allocateThread (g : Knows k σ n O h) :
    Yields (HeapM.allocate .thread 1 3) h fun u h' =>
    Knows (k.own u .thread) (Function.update σ u { offers := (σ u).offers, made := false }) n O h' ∧
      u ≠ .nil ∧ h.body? u = none ∧ k.facts u = none ∧
      h'.body? = Function.update h.body? u (some ⟨.thread, [0], [.nil, .nil, .nil]⟩) := by
  refine (g.toRetains.allocate (Nat.zero_le _)).mono ?_
  rintro u h' ⟨g', notNil, gone, unknown, e⟩
  refine ⟨?_, notNil, gone, unknown, e⟩
  obtain ⟨ρ, seen, noted⟩ := g.sees
  have nils : ∀ {i : Nat} {b : Address}, (List.replicate 3 Address.nil)[i]? = some b → b = .nil :=
    fun hb => List.eq_of_mem_replicate (List.mem_of_getElem? hb)
  have ne : ∀ {x D v}, h.body? x = some D → D.children[0]? = some v → v ≠ .nil → v ≠ u := by
    rintro x D v hx hv nn rfl
    exact (g.closed x D v hx (List.mem_of_getElem? hv)).elim nn fun live => live gone
  refine ⟨g'.stay, fun x hx => ?_, Function.update ρ u .thread, ?_, fun x hx => ?_⟩
  · rcases List.mem_cons.1 hx with rfl | hx
    · exact .inr (.inl (by simp [Known.own, Known.hold, Known.note]))
    · exact (g.kept x hx).imp_right (.imp_left Multiset.mem_cons_of_mem)
  · rw [e]
    refine ⟨seen.toTells.create g.closed gone notNil ⟨?_, fun hb => .inl (nils hb), ?_⟩
      (fun v hv => ?_) ?_ (.inr ?_)
      (fun {x D v w} hx hv nn _ => ?_) (fun _ _ keeps => keeps.elim) (by simp),
      seen.lined_create gone (by simp) fun v => ?_⟩
    · rw [Function.update_self]
      rfl
    · rw [Function.update_self]
      trivial
    · simp [Function.update_of_ne hv]
    · rw [Function.update_self]
    · rw [Function.update_self]
      exact ⟨⟨_, .nil, .nil, .nil, Function.update_self .., .inl ⟨rfl, rfl⟩, .inl ⟨rfl, rfl⟩,
        .inl ⟨rfl, rfl⟩⟩, by simp, by simp⟩
    · simp [Function.update_of_ne (ne hx hv nn)]
    · exact Task.queued_update (by simp) v
  · rcases List.mem_cons.1 hx with rfl | hx
    · exact Function.update_self ..
    · refine (Function.update_of_ne ?_ ..).trans (noted x hx)
      rintro rfl
      exact (g.live (g.kept x hx)).elim notNil fun live => live gone

/-- A slot of the record of a new thread is filled. -/
theorem fill (g : Knows k σ n (b ::ₘ O) h) (hu : h.body? u = some ⟨.thread, fs, cs⟩)
    (unknown : k.facts u = none)
    (empty : cs[i]? = some .nil) (place : (σ u).SamePlace τ)
    (shows : k.Finds σ h fun ρ => Slot ρ u .thread i b .thread ∧ Parts h.body? ρ (cs.set i b) τ) :
    Yields (HeapM.setChildOwned u .thread i b) h fun _ h' =>
    Knows k (Function.update σ u τ) n O h' ∧
      h'.body? = Function.update h.body? u (some ⟨.thread, fs, cs.set i b⟩) := by
  refine (g.toRetains.setChildOwned (by simp [unknown])).mono
    fun _ h' ⟨g', D, d, hD, _, hd, _, e⟩ => ?_
  obtain rfl := Option.some_inj.1 (hD.symm.trans hu)
  have e := e (Option.some_inj.1 (hd.symm.trans empty))
  obtain ⟨ρ, seen, noted, slot, parts⟩ := shows
  have role := (seen.conforms hu).thread rfl
  refine ⟨⟨g', g.kept, ρ, ?_, noted⟩, e⟩
  rw [e]
  exact seen.rewrite hu role ((seen.conforms hu).set (.inr (role ▸ slot)) (by rw [role]; trivial))
    (.of_parts parts hu rfl) place

/-- A new stack of a thread. -/
theorem newStack {p : Pile} (g : Knows k σ n O h) :
    Yields (Stack.create p.tag) h fun st h' => Knows (k.own st (.holder (p.kind u))) σ n O h' ∧
    st ≠ .nil ∧
      h.body? st = none ∧ h'.body? = Function.update h.body? st (some ⟨p.tag, [0], [.nil]⟩) :=
  (g.allocate_role (r := .holder (p.kind u)) (by cases p <;> exact Nat.zero_le _)
  (by cases p <;> rfl) trivial (by simp) (by cases p <;> simp [Pile.kind])).heap.mono
    fun _ _ ⟨g, notNil, gone, _, e⟩ => ⟨g, notNil, gone, e⟩

/-- The number of a new thread. -/
theorem number {w : UInt64} (g : Knows k σ n O h) (hu : h.body? u = some ⟨.thread, fs, cs⟩)
    (unknown : k.facts u = none) :
    Yields (HeapM.setField u .thread i w) h fun _ h' => Knows k σ n O h' ∧
      h'.body? = Function.update h.body? u (some ⟨.thread, fs.set i w, cs⟩) := by
  refine (g.toRetains.setField (by simp [unknown])).mono fun _ h' ⟨g', D, hD, _, e⟩ => ?_
  obtain rfl := Option.some_inj.1 (hD.symm.trans hu)
  refine ⟨g.still g' fun ρ seen _ => ?_, e⟩
  have role := (seen.conforms hu).thread rfl
  have conf : Conforms ρ u ⟨.thread, fs.set i w, cs⟩ :=
    ⟨(seen.conforms hu).tagged, (seen.conforms hu).slot, by rw [role]; trivial⟩
  rw [e, ← Function.update_eq_self u σ]
  exact seen.rewrite hu role conf (.of_parts ((seen.shows hu role).parts hu) hu rfl)
    ⟨rfl, rfl, rfl, subset_rfl, rfl⟩

end Knows

theorem Facts.Sub.put {F' : Facts} {o : Option Body} (less : F.Sub F') (gone : F a = none) :
    F.Sub (Function.update F' a o) := fun b B hb => by
  rw [Function.update_of_ne, less hb]
  rintro rfl
  simp [gone] at hb

theorem Facts.Sub.gone {F' : Facts} (less : F.Sub F') (gone : F' a = none) : F a = none := by
  by_contra notNil
  obtain ⟨B, hB⟩ := Option.ne_none_iff_exists'.1 notNil
  simp [less hB] at gone

namespace Knows

/-- A stack of a new thread is made. -/
theorem addStack {p : Pile} {α : Type} {y : PUnit → Action α} {R : α → Heap → Prop}
    (g : Knows k σ n O h)
    (hu : h.body? u = some ⟨.thread, fs, cs⟩) (unknown : k.facts u = none)
    (room : cs[p.index]? = some .nil)
    (empty : (σ u).pile p = []) (hy : ∀ st h', st ≠ .nil → Knows k σ n O h' →
    h'.body? u = some ⟨.thread, fs, cs.set p.index st⟩ →
      (∀ {F : Facts}, F.Sub h.body? → F u = none → F.Sub h'.body?) → Yields (y ⟨⟩) h' R) :
    Yields (Stack.create p.tag >>= fun st =>
    liftM (HeapM.setChildOwned u .thread p.index st) >>= y) h R := by
  refine (g.newStack (u := u) (p := p)).bind fun st h₁ ⟨g₁, notNil, gone, e₁⟩ => ?_
  have ne : u ≠ st := by
    rintro rfl
    simp [hu] at gone
  have hu₁ : h₁.body? u = some ⟨.thread, fs, cs⟩ := by rw [e₁, Function.update_of_ne ne, hu]
  have hst : h₁.body? st = some ⟨p.tag, [0], [.nil]⟩ := by rw [e₁, Function.update_self]
  obtain ⟨ρ, seen, noted, role⟩ := g₁.role
  have parts := (seen.shows hu₁ ((seen.conforms hu₁).thread rfl)).parts hu₁
  refine ((g₁.disown g.wf).fill (i := p.index) (τ := σ u) hu₁ unknown room Task.samePlace_refl
    ⟨ρ, seen, noted, by cases p <;> exact role, parts.addStack hst notNil empty⟩).heap.bind
    fun _ h₂ ⟨g₂, e₂⟩ => ?_
  rw [Function.update_eq_self] at g₂
  refine hy st h₂ notNil g₂ (by rw [e₂, Function.update_self]) fun less gone' => ?_
  rw [e₂, e₁]
  exact (less.put (less.gone gone)).put gone'

/-- A new thread has nothing to do yet, in a frame that is in its line as long as what was there
stays. -/
theorem newThread {id : UInt64} {frame structs : Address} (g : Knows k σ (n + 1) O h)
    (live : ∀ b ∈ [frame, structs], b = .nil ∨ h.body? b ≠ none)
    (on : ∀ {ρ σ'} {h' : Heap}, Sees ρ σ' h'.body? → k.Noted ρ → Facts.Sub h.body? h'.body? →
      (∀ v, h.body? v ≠ none → σ' v = σ v) → OnLine ρ frame line) :
    Yields (Thread.create id frame structs) h fun u h' => ∃ c s e, h.body? u = none ∧
      h'.body? u = some ⟨.thread, [id], [c, s, e]⟩ ∧ k.facts u = none ∧
      Knows (k.own u .thread) (Function.update σ u { line, offers := (σ u).offers })
      (n + 1) O h' := by
  refine g.allocateThread.heap.bind fun u h₁ ⟨g₁, notNil, gone, unknown, e₁⟩ => ?_
  have less₁ : Facts.Sub h.body? h₁.body? := e₁ ▸ Facts.Sub.refl.put gone
  have hu₁ : h₁.body? u = some ⟨.thread, [0], [.nil, .nil, .nil]⟩ := by
    rw [e₁, Function.update_self]
  refine Yields.bind (Yields.orRelease (Q := fun _ h' => ∃ c s e, h.body? u = none ∧
    h'.body? u = some ⟨.thread, [id], [c, s, e]⟩ ∧ k.facts u = none ∧
    Knows (k.own u .thread) (Function.update σ u { line, offers := (σ u).offers }) (n + 1) O h') ?_)
    fun _ _ made => .pure made
  have nothing : ∀ p, (Function.update σ u
    ({ offers := (σ u).offers, made := false } : Task) u).pile p = [] := by
    intro p
    rw [Function.update_self]
    cases p <;> rfl
  refine (g₁.number (w := id) hu₁ unknown).heap.bind fun _ h₂ ⟨g₂, e₂⟩ => ?_
  have hu₂ : h₂.body? u = some ⟨.thread, [id], [.nil, .nil, .nil]⟩ := by
    rw [e₂, Function.update_self]; rfl
  refine g₂.addStack (p := .control) hu₂ unknown rfl (nothing _) fun c h₃ nn₃ g₃ hu₃ more₃ => ?_
  refine g₃.addStack (p := .stash) hu₃ unknown rfl (nothing _) fun st h₄ nn₄ g₄ hu₄ more₄ => ?_
  have less : Facts.Sub h.body? h₄.body? := more₄ (more₃ (e₂ ▸ less₁.put gone) gone) gone
  have live' : ∀ b ∈ [frame, structs], b = .nil ∨ h₄.body? b ≠ none := fun b hb =>
    (live b hb).imp_right fun alive => by
    obtain ⟨B, hB⟩ := Option.ne_none_iff_exists'.1 alive
    simp [less hB]
  -- the line of the frame is what it was, and the new thread starts there
  have on' : ∀ {ρ} {h' : Heap}, Sees ρ (Function.update σ u { offers := (σ u).offers, made :=
    false }) h'.body? → (k.own u .thread).Noted ρ →
      Facts.Sub h.body? h'.body? → OnLine ρ frame line := fun seen noted less =>
    on seen (fun x hx => noted x (List.mem_cons_of_mem _ hx)) less fun v alive =>
      Function.update_of_ne (fun (e : v = u) => alive (e ▸ gone)) ..
  obtain ⟨ρ, seen, noted⟩ := g₄.sees
  rw [Env.create_eq]
  refine (g₄.madeAs (r := .env u) (Nat.zero_le _) rfl trivial (by simp) (by simp)
    (fun _ keeps => keeps) (by simp) live' ⟨ρ, seen, noted, fun {a i b} hb => ?_⟩).bind
    fun e h₅ ⟨g₅, role, goneE, e₅⟩ => ?_
  · rcases i with _ | _ | i
    · obtain rfl : frame = b := by simpa using hb
      exact (on' seen noted less).slot.imp_right fun h _ => h
    · exact .inr fun e => absurd e (by simp)
    · simp at hb
  have less₅ : Facts.Sub h.body? h₅.body? := e₅ ▸ less.put (less.gone goneE)
  have hu₅ : h₅.body? u = some ⟨.thread, [id], [c, st, .nil]⟩ := by
    rw [e₅, Function.update_of_ne, hu₄]
    · rfl
    · rintro rfl
      simp [hu₄] at goneE
  obtain ⟨ρ, seen, noted, role⟩ := role
  refine (g₅.fill (i := 2) (τ := { line, offers := (σ u).offers, made := false }) hu₅ unknown rfl
    (by rw [Function.update_self]; exact ⟨rfl, rfl, rfl, subset_rfl, rfl⟩)
    ⟨ρ, seen, noted, role, ?_⟩).heap.mono
    fun _ h₆ ⟨g₆, e₆⟩ => ?_
  swap
  · have hu₆ : h₆.body? u = some ⟨.thread, [id], [c, st, e]⟩ := by
      rw [e₆, Function.update_self]; rfl
    have nn : e ≠ .nil := by
      rintro rfl
      have := g₅.dead
      rw [e₅, Function.update_self] at this
      cases this
    have whole : .nil ∉ [c, st, e] := by simp [nn₃.symm, nn₄.symm, nn.symm]
    exact ⟨c, st, e, gone, hu₆, unknown, by
      simpa using g₆.still g₆.toRetains fun _ seen _ => seen.finish hu₆ whole⟩
  have parts := (seen.shows hu₅ ((seen.conforms hu₅).thread rfl)).parts hu₅
  rw [Function.update_self] at parts
  obtain ⟨⟨c', st', e', kids, hc, hs, -⟩, -, -⟩ := parts
  obtain ⟨rfl, rfl, rfl⟩ : c = c' ∧ st = st' ∧ .nil = e' := by simpa using kids
  exact ⟨⟨c, st, e, rfl, hc, hs,
    .inr ⟨frame, structs, by rw [e₅, Function.update_self], on' seen noted less₅⟩⟩, by simp, nofun⟩

end Knows

/-! ## Spawning -/

namespace Knows

/-- The next number is drawn. -/
theorem nextId [k.KeptByTurns] {s : Address} (g : Knows k σ n O h) :
    Yields (Scheduler.nextId s) h fun _ h' => Knows k σ n O h' ∧
    Facts.SameThreads h.body? h'.body? := by
  refine .read fun id _ => ?_
  have other : ∀ {D}, k.facts s = some D → D.tag ≠ .scheduler := k.other Tag.keptByTurns rfl
  refine ((g.setField rfl other).and (g.toRetains.setField other)).heap.bind
    fun _ h' ⟨g', _, D, hD, tag, e⟩ => .pure ⟨g', ?_⟩
  rw [e]
  exact Facts.SameThreads.refl.update fun E hE => Option.some_inj.1 (hD.symm.trans hE) ▸ by
    simp [tag]

/-- Values are put on the stash of a thread, the last on top. -/
theorem pushAll [k.KeptByChains] {cs : List Address} {st : Address}
    (hu : k.facts u = some ⟨.thread, fs, cs⟩)
    (hst : cs[1]? = some st) {l : List Address} (g : Knows k σ (n + 1) (laden l O) h) :
    Yields (forIn l PUnit.unit fun v _ => do
      Stack.pushOwned st v
      pure (.yield ⟨⟩)) h fun _ h' =>
        Knows k (Function.update σ u { σ u with stash := l.reverse ++ (σ u).stash })
        (n + 1) O h' := by
  refine (Yields.forIn (I := fun rest h' => ∃ pre, l = pre ++ rest ∧
    Knows k (Function.update σ u { σ u with stash := pre.reverse ++ (σ u).stash }) (n + 1)
    (laden rest O) h')
    ⟨[], rfl, by simpa using g⟩ ?_).mono fun _ h' ⟨pre, e, g⟩ => ?_
  · rintro v rest h₁ ⟨pre, e, g₁⟩
    have g₁ : Knows k _ (n + 1) (v ::ₘ laden rest O) h₁ := g₁
    exact (g₁.pushStash hu hst).bind fun _ h₂ g₂ =>
      .pure ⟨rfl, pre ++ [v], by simp [e], by simpa using g₂⟩
  · obtain rfl : l = pre := by simpa using e
    exact g

/-- A node is put on the control stack of a thread. -/
theorem pushNode [k.KeptByChains] {cs : List Address} {st : Address} {c : Code}
    (hu : k.facts u = some ⟨.thread, fs, cs⟩) (hst : cs[0]? = some st)
    (g : Knows k σ (n + 1) (a ::ₘ O) h)
    (role : k.Finds σ h fun ρ => ρ a = .code c) :
    Yields (Stack.pushOwned st a) h fun _ h' =>
      Knows k (Function.update σ u { σ u with control := ⟨a, c⟩ :: (σ u).control })
      (n + 1) O h' := by
  obtain ⟨ρ, seen, noted, role⟩ := role
  refine g.pushOwned (p := .control) (g.body hu) hst ⟨ρ, seen, noted, .inr ⟨c, role⟩, fun e he =>
    ?_⟩ rfl
    (fun q hq => ?_) rfl ⟨rfl, rfl, rfl, subset_rfl, rfl⟩
  · rcases List.mem_cons.1 he with rfl | he
    · exact .inr ⟨rfl, role⟩
    · exact .inl he
  · cases q <;> simp_all [Task.pile]

/-- A new thread starts in the frame of the running one. -/
theorem fork [k.Runner t] {id : UInt64} (g : Knows k σ (n + 1) O h) :
    Yields (Thread.fork t id) h fun u h' => ∃ c s e, h.body? u = none ∧
      h'.body? u = some ⟨.thread, [id], [c, s, e]⟩ ∧ k.facts u = none ∧
      Knows (k.own u .thread) (Function.update σ u { line := (σ t).line, offers := (σ u).offers })
      (n + 1) O h' := by
  obtain ⟨fs, cs, ht⟩ := Known.Runner.record (k := k) (t := t)
  have ht := g.body ht
  refine .read fun e readE => .read fun f readF => .read fun structs readS => ?_
  have he := (g.sound.child_of_body ht readE).2
  obtain ⟨E, hE, tag, hf⟩ := g.sound.child_read readF
  have hs := (g.sound.child_of_body hE readS).2
  refine g.newThread (fun b hb => ?_) fun seen _ less same => ?_
  · simp only [List.mem_cons, List.not_mem_nil, or_false] at hb
    rcases hb with rfl | rfl
    · exact g.closed e E _ hE (List.mem_of_getElem? hf)
    · exact g.closed e E _ hE (List.mem_of_getElem? hs)
  · rw [← same t (by simp [ht])]
    exact seen.on_line (less ht) he (less hE) hf

/-- A thread is made that is runnable. -/
theorem spawn [k.KeptByTurns] [k.Runner t] {argc : UInt64} {l : List Address} {s : Address}
    (g : Knows k σ (n + 2) (laden l O) h) (len : l.length = argc.toNat + 1) :
    Yields (Machine.spawn s t argc l) h fun _ h' => ∃ u τ, u ≠ t ∧
    (∀ B, h.body? u = some B → B.tag ≠ .thread) ∧
      (σ t).Starts τ ∧ Knows k (Function.update σ u τ) (n + 2) O h' := by
  obtain ⟨fs, cs, ht⟩ := Known.Runner.record (k := k) (t := t)
  refine g.nextId.bind fun id h₁ ⟨g₁, same⟩ => ?_
  refine g₁.fork.bind fun u h₂ ⟨c, st, e, gone, hu, unknown, g₂⟩ => ?_
  have ne : u ≠ t := by
    rintro rfl
    simp [unknown] at ht
  have new : ∀ B, h.body? u = some B → B.tag ≠ .thread := fun B hB tag => by
    simp [same hB tag] at gone
  let k' := (k.own u .thread).learn u ⟨.thread, [id], [c, st, e]⟩
  have byChains : k'.KeptByChains := .learn rfl
  have fact : k'.facts u = some ⟨.thread, [id], [c, st, e]⟩ := Function.update_self ..
  have within : k.Within k' := by
    refine ⟨fun b B hb => (Function.update_of_ne ?_ ..).trans hb, List.subset_cons_self ..⟩
    rintro rfl
    simp [unknown] at hb
  have g₂ := g₂.learn hu (.inr (.inl (Multiset.mem_cons_self ..)))
  refine .read fun st' readS => ?_
  have hst := (g₂.sound.child_of_body hu readS).2
  refine (g₂.pushAll fact hst).bind fun _ h₃ g₃ => .read fun c' readC => ?_
  have hc := (g₃.sound.child_of_body (g₃.body fact) readC).2
  refine (g₃.unit rfl).bind fun a h₄ ⟨g₄, role⟩ => ?_
  refine (g₄.pushNode fact hc role).bind fun _ h₅ g₅ => ?_
  obtain ⟨ρ, seen, noted⟩ := g₅.sees
  refine (g₅.build (l := []) rfl ⟨ρ, seen, noted, .nil⟩).bind fun b h₆ ⟨g₆, role⟩ => ?_
  refine (g₆.pushNode fact hc role).bind fun _ h₇ g₇ => ?_
  refine (g₇.enqueue (g₇.thread fact) (by simp)).bind fun _ h₈ ⟨x, g₈⟩ => ?_
  refine (g₈.unhold within rfl g.wf).free.heap.mono fun _ _ g₉ =>
    ⟨u, _, ne, new, ?_, by simpa using g₉⟩
  exact ⟨⟨_, _, _, rfl, by simpa⟩, rfl, rfl, rfl, rfl⟩

end Knows

namespace Machine

open Code (Stands Schedules)

theorem goCallI_schedules {ks : List Address} {ps : List Code}
    (st : Stands (.node .goCallI fs ks ps)) :
    Schedules (.node .goCallI fs ks ps) goCallI := by
  intro k t σ τ n O s node _ _ p hc free runs
  obtain ⟨argc, rfl⟩ := st.counted (by simp)
  refine .look fun w read => p.popOperands fun {args callee s₁} len p₁ same => .get (.get ?_)
  obtain rfl : argc = w := by simpa using p.field_read hc read
  rw [p₁.thread]
  have g := p₁.knows
  rw [Heap.laden_append, show laden [callee] O = callee ::ₘ O from rfl, ← Heap.laden_cons] at g
  refine (Knows.spawn (n := n + 13) (l := callee :: args) g (by simp [len])).acts.bind
    fun _ s₂ ⟨e, u, τ', ne, new, starts, g₂⟩ => ?_
  rw [Function.update_comm ne.symm] at g₂
  rw [Function.update_self] at starts
  have made : τ.Makes (.node .goCallI [argc] ks ps)
      { τ with stash := τ.stash.drop (argc.toNat + 1) } :=
    .values (V := []) rfl rfl
  refine (Plays.enqueueCurrent (p.restore ⟨e.trans p₁.thread, g₂⟩)
    (made.same_place.1.trans free)).mono
    fun _ _ ⟨τ₂, p₃, goes⟩ => ⟨_, τ₂, p₃, fun v _ => ?_, .goes made goes⟩
  by_cases e : v = u
  · subst e
    rw [Function.update_self]
    exact .inr (.inr ⟨fun B hB tag => new B (same hB tag) tag, starts.call, starts.line,
      starts.runs, starts.queued, starts.made⟩)
  · exact .inl (Function.update_of_ne e ..)

end Machine
end GoMachine
