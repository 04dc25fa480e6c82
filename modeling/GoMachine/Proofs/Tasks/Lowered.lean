import GoMachine.Lowering
import GoMachine.Proofs.Owns.Lowering
import GoMachine.Proofs.Tasks.Choices
import GoMachine.Proofs.Tasks.Makes
/-!
# What programs are lowered to

Each expression becomes a node that leaves one value (`Eval c 0 1`), and each statement one that
takes nothing and leaves nothing (`Runs c 0`). The parts of a node are built one after the other and
kept with their code until the node takes them over.

* `Known.part`, `Knows.gather`: parts that are kept, and taken over in any order.
* `Lowering.expr_lowers`, `Lowering.stmt_lowers`: the two statements above.
-/
namespace GoMachine

open Heap (laden)

/-- An address stands for a part as far as that does not hang on roles. -/
def Code.Laid (a : Address) : Code → Prop
  | .nothing => a = .nil
  | .scope _ => False
  | _ => True

namespace Known

/-- A part is kept, with its code if it is a node. -/
def part (k : Known) (a : Address) : Code → Known
  | c@(.node ..) => k.own a (.code c)
  | _ => k.hold a

def parts (k : Known) (xs : List (Address × Code)) : Known := xs.foldl (fun k x => k.part x.1 x.2) k

end Known

variable {k : Known} {σ : Address → Task} {n : Nat} {O : Multiset Address} {h : Heap} {a : Address}
    {c : Code}
  {p : Tag → Bool} {xs ys : List (Address × Code)} {fs : List UInt64} {tag : Tag}

instance [k.Only p] : (k.part a c).Only p := by
  cases c <;> exact ⟨Known.Only.only (k := k)⟩

theorem Known.part_stays : (k.part a c).stays = a ::ₘ k.stays := by cases c <;> rfl

theorem Known.parts_stays :
    (k.parts xs).stays = (xs.map Prod.fst : Multiset Address) + k.stays := by
  induction xs generalizing k with
  | nil => exact (zero_add _).symm
  | cons x xs ih =>
    rw [List.map_cons, ← Multiset.cons_coe, Multiset.cons_add, ← Multiset.add_cons,
      ← part_stays (c := x.2)]
    exact ih

namespace Knows

theorem part_wf (wf : k.Wf) : (k.part a c).Wf := by
  cases c with
  | node => exact wf_own wf
  | _ => exact ⟨wf.held.anti (Multiset.le_cons_self _ a), fun x hx =>
      (wf.kept x hx).imp_right (.imp_left Multiset.mem_cons_of_mem)⟩

theorem parts_wf (wf : k.Wf) : (k.parts xs).Wf := by
  induction xs generalizing k with
  | nil => exact wf
  | cons x xs ih => exact ih (part_wf wf)

theorem part_within : k.Within (k.part a c) := by
  cases c with
  | node => exact ⟨.refl, List.subset_cons_self _ _⟩
  | _ => exact ⟨.refl, List.Subset.refl _⟩

theorem parts_within : k.Within (k.parts xs) := by
  induction xs generalizing k with
  | nil => exact ⟨.refl, List.Subset.refl _⟩
  | cons x xs ih =>
      exact ⟨fun b B hb => ih.facts (part_within.facts hb), fun y hy =>
        ih.notes (part_within.notes hy)⟩

/-- A part that is noted is what its code says. -/
theorem isPart_of_noted {ρ : Roles} (laid : c.Laid a) (noted : (k.part a c).Noted ρ) :
    IsPart ρ a c := by
  cases c with
  | data => trivial
  | nothing => exact laid
  | scope => exact laid.elim
  | node => exact noted (a, _) (List.mem_cons_self ..)

/-- Parts are owned again, and are what their code says. -/
theorem ungather (g : Knows (k.parts xs) σ n O h) (wf : k.Wf) (laid : ∀ x ∈ xs, x.2.Laid x.1) :
    Knows k σ n (laden (xs.map Prod.fst) O) h ∧ ∀ {ρ}, (k.parts xs).Noted ρ →
    ∀ x ∈ xs, IsPart ρ x.1 x.2 := by
  induction xs generalizing k with
  | nil => exact ⟨g, by simp⟩
  | cons x xs ih =>
    obtain ⟨g', isPart⟩ := ih g (part_wf wf) fun y hy => laid y (List.mem_cons_of_mem _ hy)
    refine ⟨g'.unhold part_within Known.part_stays wf, fun {ρ} noted y hy => ?_⟩
    rcases List.mem_cons.1 hy with rfl | hy
    · refine isPart_of_noted (k := k) (laid _ (List.mem_cons_self ..)) fun z hz => noted z ?_
      exact (parts_within (k := k.part y.1 y.2)).notes hz
    · exact isPart noted y hy

/-- Parts are taken over in any order. -/
theorem gather (g : Knows (k.parts xs) σ n O h) (wf : k.Wf) (laid : ∀ x ∈ xs, x.2.Laid x.1)
    (perm : xs.Perm ys) :
    Knows k σ n (laden (ys.map Prod.fst) O) h ∧
      k.Finds σ h fun ρ => List.Forall₂ (IsPart ρ) (ys.map Prod.fst) (ys.map Prod.snd) := by
  obtain ⟨ρ, seen, noted⟩ := g.sees
  obtain ⟨g', isPart⟩ := g.ungather wf laid
  refine ⟨?_, ρ, seen, fun z hz => noted z (parts_within.notes hz), ?_⟩
  · rwa [Heap.laden_eq, ← Multiset.coe_eq_coe.2 (perm.map Prod.fst), ← Heap.laden_eq]
  · change List.Forall₂ _ _ _
    rw [List.forall₂_map_left_iff, List.forall₂_map_right_iff, List.forall₂_same]
    exact fun x hx => isPart noted x (perm.mem_iff.2 hx)

/-- A node takes its parts over. There are not more of them than a record has slots. -/
theorem builds (g : Knows (k.parts xs) σ n O h) (wf : k.Wf) (laid : ∀ x ∈ xs, x.2.Laid x.1)
    (perm : xs.Perm ys)
    (ht : tag.isControl) : Yields (Node.build tag fs (ys.map Prod.fst)) h fun a h' =>
    ys.length < 2 ^ 16 ∧
      Knows (k.part a (.node tag fs (ys.map Prod.fst) (ys.map Prod.snd))) σ n O h' := by
  obtain ⟨g', parts⟩ := g.gather wf laid perm
  refine (g'.build (w := fs) ht parts).mono fun a h' ⟨g, role⟩ => ⟨?_, g.own role⟩
  have body := (g.own role).node_body (.noted (List.mem_cons_self ..))
  obtain ⟨c, hc, e⟩ := Heap.body?_eq_some.1 body
  obtain ⟨-, rfl⟩ := Heap.cell?_eq_some.1 hc
  have len : (h'.cellAt a).children.length = ys.length := by
    have := congrArg (·.children.length) e
    simpa [Cell.body] using this
  rw [← len, Heap.length_children]
  exact UInt16.toNat_lt _

end Knows

/-! ## Parts in turn -/

/-- With some parts built already, an action builds the node of a piece of code. -/
structure Lays (xs : List (Address × Code)) (q : Code → Prop) (x : Action Address) : Prop where
  yields : ∀ {k : Known} {σ : Address → Task} {n : Nat} {O : Multiset Address} {h : Heap}
    [k.KeptByValues], k.Wf →
    (∀ x ∈ xs, x.2.Laid x.1) → Knows (k.parts xs) σ (n + 1) O h →
      Yields x h fun a h' => ∃ c, q c ∧ c.Laid a ∧ Knows (k.part a c) σ (n + 1) O h'

/-- An action builds such a node. -/
abbrev Lowers (q : Code → Prop) (x : Action Address) : Prop := Lays [] q x

/-- An action builds such parts. -/
structure LowersList (q : List Code → Prop) (x : Action (List Address)) : Prop where
  yields : ∀ {k : Known} {σ : Address → Task} {n : Nat} {O : Multiset Address} {h : Heap}
    [k.KeptByValues],
    Knows k σ (n + 1) O h → Yields x h fun as h' => ∃ xs : List (Address × Code),
    as = xs.map Prod.fst ∧
      q (xs.map Prod.snd) ∧ (∀ x ∈ xs, x.2.Laid x.1) ∧ Knows (k.parts xs) σ (n + 1) O h'

section

variable {q r : Code → Prop} {s : List Code → Prop} {x : Action Address}
    {f : Address → Action Address}
  {y : Action (List Address)} {g : List Address → Action Address}

instance [k.Only p] : (k.parts xs).Only p := by
  induction xs generalizing k with
  | nil => assumption
  | cons x xs ih => exact ih (k := k.part x.1 x.2)

namespace Lays

theorem weaken (hx : Lays xs r x) (sub : ∀ c, r c → q c) : Lays xs q x where
  yields wf laid known := (hx.yields wf laid known).mono fun _ _ ⟨c, hc, rest⟩ =>
  ⟨c, sub c hc, rest⟩

/-- A part is built. -/
theorem more (hx : Lowers r x) (hf : ∀ a c, r c → Lays (xs ++ [(a, c)]) q (f a)) :
    Lays xs q (x >>= f) where
  yields {k σ n O h} _ wf laid known := by
    refine (hx.yields known.wf (by simp) known).bind fun a h₁ ⟨c, hc, la, known₁⟩ =>
      (hf a c hc).yields wf ?_ ?_
    · simpa [or_imp, forall_and] using ⟨fun a c => laid (a, c), la⟩
    · rw [Known.parts, List.foldl_append]
      exact known₁

/-- Some parts are built. -/
theorem list (hy : LowersList s y) (hg : ∀ ys : List (Address × Code), s (ys.map Prod.snd) →
    Lays (xs ++ ys) q (g (ys.map Prod.fst))) : Lays xs q (y >>= g) where
  yields {k σ n O h} _ wf laid known := by
    refine (hy.yields known).bind fun as h₁ ⟨ys, e, hs, la, known₁⟩ => ?_
    subst e
    refine (hg ys hs).yields wf (fun z hz => (List.mem_append.1 hz).elim (laid z) (la z)) ?_
    rw [Known.parts, List.foldl_append]
    exact known₁

/-- The node takes its parts over. -/
theorem build (ys : List (Address × Code)) (perm : xs.Perm ys) (ht : tag.isControl)
    (hq : ys.length < 2 ^ 16 → q (.node tag fs (ys.map Prod.fst) (ys.map Prod.snd))) :
    Lays xs q (Node.build tag fs (ys.map Prod.fst)) where
  yields wf laid known := (known.builds wf laid perm ht).mono fun _ _ ⟨len, known'⟩ =>
  ⟨_, hq len, trivial, known'⟩

/-- A node takes the last parts over. -/
theorem inner (xs ys zs : List (Address × Code)) (perm : ys.Perm zs) (ht : tag.isControl)
    (hf : ∀ a, Lays (xs ++ [(a, .node tag fs (zs.map Prod.fst) (zs.map Prod.snd))]) q (f a)) :
    Lays (xs ++ ys) q (Node.build tag fs (zs.map Prod.fst) >>= f) where
  yields {k σ n O h} _ wf laid known := by
    rw [Known.parts, List.foldl_append] at known
    have here := fun x hx => laid x (List.mem_append_left _ hx)
    refine (Knows.builds (k := k.parts xs) known (Knows.parts_wf wf)
      (fun x hx => laid x (List.mem_append_right _ hx)) perm
      ht).bind fun a h₁ ⟨_, known₁⟩ => (hf a).yields wf ?_ ?_
    · simpa [or_imp, forall_and] using ⟨fun a c => here (a, c), (trivial : Code.Laid a (.node ..))⟩
    · rw [Known.parts, List.foldl_append]
      exact known₁

/-- The node of a zero value refers to its type. -/
theorem zero {t : Address} (ht : t ∈ xs.map Prod.fst) (hf : ∀ a c, Eval c 0 1 →
    Lays (xs ++ [(a, c)]) q (f a)) :
    Lays xs q (Node.buildShared .zero [] [t] >>= f) where
  yields {k σ n O h} _ wf laid known := by
    obtain ⟨ρ, seen, noted⟩ := known.sees
    have live := known.live (a := t)
      (.inr (.inl (by rw [Known.parts_stays]; exact Multiset.mem_add.2 (.inl ht))))
    refine (known.buildShared rfl (by simpa using live)
      ⟨ρ, seen, noted, (.cons trivial .nil : List.Forall₂ (IsPart ρ) [t] [.data])⟩).bind
      fun a h₁ ⟨known₁, role⟩ =>
      (hf a (.node .zero [] [t] [.data]) (.simple rfl)).yields wf ?_ ?_
    · simpa [or_imp, forall_and] using ⟨fun a c => laid (a, c), (trivial : Code.Laid a (.node ..))⟩
    · rw [Known.parts, List.foldl_append]
      exact known₁.own role

/-- Something that is no node. -/
theorem data (hx : ∀ {k : Known} {σ : Address → Task} [k.KeptByValues], Makes 0 (Knows k σ) 1 x) :
    Lowers (· = .data) x where
  yields _ _ known := Yields.mono (hx (F := 0) known).yields fun _ _ known' =>
  ⟨.data, rfl, trivial, known'.hold⟩

/-- A part that is left out. -/
theorem nothing : Lowers (· = .nothing) (pure .nil) where
  yields _ _ known := .pure ⟨.nothing, rfl, rfl, Knows.hold (Knows.cons_nil.2 known)⟩

theorem unit (ht : tag.isControl) (hq : q (.node tag [] [] [])) : Lowers q (Node.unit tag) where
  yields _ _ known := (Knows.unit known ht).mono fun _ _ ⟨known', role⟩ =>
  ⟨_, hq, trivial, known'.own role⟩

theorem fail {e : Fault} : Lays xs q (throw e) where
  yields _ _ _ := .throw

end Lays

namespace LowersList

theorem nil (hs : s []) : LowersList s (pure []) where
  yields known := .pure ⟨[], rfl, hs, by simp, known⟩

theorem cons {s' : List Code → Prop} (hx : Lowers r x) (hy : LowersList s y) (hs : ∀ c cs, r c →
    s cs → s' (c :: cs)) :
    LowersList s' (x >>= fun a => y >>= fun as => pure (a :: as)) where
  yields {k σ n O h} _ known := by
    refine (hx.yields known.wf (by simp) known).bind fun a h₁ ⟨c, hc, la, known₁⟩ => ?_
    refine (hy.yields known₁).bind
      fun as h₂ ⟨ys, e, hcs, la', known₂⟩ =>
      .pure ⟨(a, c) :: ys, by simp [e], hs _ _ hc hcs, ?_, known₂⟩
    simpa using ⟨la, fun a' c' => la' (a', c')⟩

theorem cons₂ {r' : Code → Prop} {s' : List Code → Prop} {x' : Action Address} (hx : Lowers r x)
    (hx' : Lowers r' x')
    (hy : LowersList s y) (hs : ∀ c c' cs, r c → r' c' → s cs → s' (c :: c' :: cs)) :
    LowersList s' (x >>= fun a => x' >>= fun b => y >>= fun as => pure (a :: b :: as)) where
  yields {k σ n O h} _ known := by
    refine (hx.yields known.wf (by simp) known).bind fun a h₁ ⟨c, hc, la, known₁⟩ => ?_
    refine (hx'.yields known₁.wf (by simp) known₁).bind fun b h₂ ⟨d, hd, lb, known₂⟩ => ?_
    refine (hy.yields known₂).bind
        fun as h₃ ⟨ys, e, hcs, la', known₃⟩ =>
        .pure ⟨(a, c) :: (b, d) :: ys, by simp [e], hs _ _ _ hc hd hcs, ?_, known₃⟩
    simpa using ⟨la, lb, fun a' c' => la' (a', c')⟩

end LowersList

end

/-! ## Expressions and statements -/

theorem Chunk.cons {cs : List Code} {m : Nat} (h : Runs c m) (rest : Chunk cs 0) :
    Chunk (c :: cs) m := by
  cases h with
  | eval e => simpa using Chunk.eval (d := 0) e rest
  | stmt s => exact .stmt s rest

namespace Lowering

/-- So many nodes that each leave one value. -/
def Values (m : Nat) (cs : List Code) : Prop := cs.length = m ∧ ∀ c ∈ cs, Eval c 0 1

theorem text_lowers {text : String} : Lowers (· = .data) (Text.create text) := .data fun own =>
    Text.create_owns own

theorem type_lowers {t : GoType} : Lowers (· = .data) (type t) := .data type_makes

theorem named_lowers {name : String} {m r : Nat} (h : tag.operands? [] = some (m, r))
    (ht : tag.isControl) :
    Lowers (Eval · m r) (named tag name) :=
  .more text_lowers fun a c _ => .build [(a, c)] (.refl _) ht fun _ => .simple h

theorem literal_lowers {v : Literal} : Lowers (Eval · 0 1) (literal v) := by
  have built : ∀ {x : Action Address} {q : Code → Prop}, Lowers q x →
      Lowers (Eval · 0 1) (x >>= fun v => Node.build .literal [] [v]) := fun hx =>
    .more hx fun a c _ => .build [(a, c)] (.refl _) rfl fun _ => .simple rfl
  cases v with
  | nil => exact built .nothing
  | bool => exact built (.data fun own => Scalar.new_owns rfl own)
  | int32 => exact built (.data fun own => Scalar.new_owns rfl own)
  | float32 => exact built (.data fun own => Scalar.new_owns rfl own)
  | rune => exact built (.data fun own => Scalar.new_owns rfl own)
  | string => exact built text_lowers

theorem params_lowers : ∀ {ps : List Param}, LowersList (fun _ => True) (params ps)
  | [] => .nil trivial
  | _ :: _ => .cons₂ text_lowers type_lowers params_lowers fun _ _ _ _ _ _ => trivial

theorem receiver_lowers : ∀ {rcv : Option Param}, LowersList (fun _ => True) (receiver rcv)
  | none => ⟨fun known => .pure ⟨[(.nil, .nothing), (.nil, .nothing)], rfl, trivial, by
    simp [Code.Laid],
      Knows.hold (Knows.cons_nil.2 (Knows.hold (Knows.cons_nil.2 known)))⟩⟩
  | some _ => params_lowers

/-- A function literal with its body. -/
theorem function_lowers {body : Address} {c : Code} {rcv : Option Param} {ps : List Param}
    (hc : Runs c 0) :
    Lays [(body, c)] (fun c => c.IsFunction ∧ Eval c 0 1) (function body rcv ps) :=
  .list receiver_lowers fun ys _ => .list params_lowers fun zs _ => by
    have built : Lays ([(body, c)] ++ ys ++ zs) (fun c => c.IsFunction ∧ Eval c 0 1)
        (Node.build .functionLit [ps.length.toUInt64, Scalar.wordOfBool rcv.isSome]
          (((body, c) :: ys ++ zs).map Prod.fst)) :=
      .build _ (.refl _) rfl fun _ => ⟨⟨_, _, _, _, rfl, hc⟩, .functionLit hc⟩
    simpa using built

theorem loopVariable_lowers {init : Option Stmt} : Lowers (fun _ => True) (loopVariable init) := by
  unfold loopVariable
  split
  · exact text_lowers.weaken fun _ _ => trivial
  · exact Lays.nothing.weaken fun _ _ => trivial

theorem sequence_lowers {body : Action (List Address)} (hb : LowersList (Chunk · 0) body) :
    Lowers (Runs · 0) (sequence body) :=
  .list hb fun ys hc => .build ys (.refl _) rfl fun _ => .stmt (.sequence hc)

theorem block_lowers {body : Action (List Address)} (hb : LowersList (Chunk · 0) body) :
    Lowers (Runs · 0) (block body) :=
  .more (sequence_lowers hb) fun a c hc => .build [(a, c)] (.refl _) rfl fun _ => .stmt (.block hc)

theorem fieldNames_lowers {fields : List (String × Expr)} :
    LowersList (·.length = fields.length) (fieldNames fields) := by
  induction fields with
  | nil => exact .nil rfl
  | cons field rest ih => exact .cons text_lowers ih fun _ _ _ len => by simp [len]

theorem Values.toNat {m : Nat} {ys : List (Address × Code)} (hs : Values m (ys.map Prod.snd))
    (small : ys.length < 2 ^ 16) :
    m.toUInt64.toNat = ys.length := by
  obtain ⟨len, -⟩ := hs
  rw [List.length_map] at len
  rw [← len]
  exact Nat.mod_eq_of_lt (by omega)

/-- A value that may be left out. -/
def Optional (there : Bool) (c : Code) : Prop := if there then Eval c 0 1 else c = .nothing

/-- The operands of a slice expression that are there. -/
theorem Optional.operands {low high : Bool} {c l r : Code} (hc : Eval c 0 1) (hl : Optional low l)
    (hr : Optional high r) :
    (∀ p ∈ [c, l, r].filter Code.isThere, Eval p 0 1) ∧ ([c, l, r].filter Code.isThere).length =
      1 + flagCount (Scalar.wordOfBool low) + flagCount (Scalar.wordOfBool high) := by
  have there : ∀ {p}, Eval p 0 1 → p.isThere := fun h => h.isNode.isThere
  have gone : Code.isThere .nothing = false := rfl
  have one : flagCount (Scalar.wordOfBool true) = 1 := rfl
  have unflagged : flagCount (Scalar.wordOfBool false) = 0 := rfl
  cases low <;> cases high <;> simp only [Optional, Bool.false_eq_true, if_false, if_true] at hl hr
  · subst hl hr
    simp [there hc, hc, gone, unflagged]
  · subst hl
    simp [there hc, hc, there hr, hr, gone, one, unflagged]
  · subst hr
    simp [there hc, hc, there hl, hl, gone, one, unflagged]
  · simp [there hc, hc, there hl, hl, there hr, hr, one]

mutual

theorem expr_lowers : ∀ {e : Expr}, Lowers (Eval · 0 1) (expr e)
  | .literal _ => literal_lowers
  | .name _ => named_lowers rfl rfl
  | .unary _ _ =>
      .more expr_lowers fun a c h => .build [(a, c)] (.refl _) rfl fun _ =>
      .split rfl (by simpa) rfl
  | .binary _ _ _ => .more expr_lowers fun a c h => .more expr_lowers fun b d h' =>
    .build [(a, c), (b, d)] (.refl _) rfl fun _ => .split rfl (by simpa using ⟨h, h'⟩) rfl
  | .call _ _ => .more expr_lowers fun a c h => .list exprs_lowers fun ys hs =>
    .build ((a, c) :: ys) (.refl _) rfl fun small => .split rfl (List.forall_mem_cons.2 ⟨h, hs.2⟩)
      (by simp [Tag.operands?, hs.toNat (Nat.lt_of_succ_lt small)])
  | .func _ _ _ =>
      .more (sequence_lowers stmts_lowers) fun _ _ hc => (function_lowers hc).weaken fun _ h => h.2
  | .member _ _ => .more expr_lowers fun a c h => .more text_lowers fun b d _ =>
    .build [(a, c), (b, d)] (.refl _) rfl fun _ => .split rfl (by simpa) rfl
  | .method _ _ => .more expr_lowers fun a c h => .more text_lowers fun b d _ =>
    .build [(a, c), (b, d)] (.refl _) rfl fun _ => .split rfl (by simpa) rfl
  | .index _ _ => .more expr_lowers fun a c h => .more expr_lowers fun b d h' =>
    .build [(a, c), (b, d)] (.refl _) rfl fun _ => .split rfl (by simpa using ⟨h, h'⟩) rfl
  | .slice _ _ _ =>
      .more expr_lowers fun a c h => .more optional_lowers fun l cl hl =>
      .more optional_lowers fun r cr hr =>
    .build [(a, c), (l, cl), (r, cr)] (.refl _) rfl fun _ => by
      obtain ⟨each, len⟩ := Optional.operands h hl hr
      exact .split rfl each (congrArg (fun m => some (m, 1)) len.symm)
  | .make _ _ => .more type_lowers fun a c _ => .list exprs_lowers fun ys hs =>
    .build ((a, c) :: ys) (.refl _) rfl fun small => .split rfl hs.2
      (by simp [Tag.operands?, hs.toNat (Nat.lt_of_succ_lt small)])
  | .composite _ _ => .more type_lowers fun a c _ => .list exprs_lowers fun ys hs =>
    .build ((a, c) :: ys) (.refl _) rfl fun small => .split rfl hs.2 (by
      have small : ys.length < 2 ^ 16 := Nat.lt_of_succ_lt small
      have whole : ys.length.toUInt64.toNat = ys.length := Nat.mod_eq_of_lt (by omega)
      simp [Tag.operands?, whole])
  | .structLit name fields => .more text_lowers fun a c _ => .list fieldNames_lowers fun xs len =>
    .list fieldValues_lowers fun ys hs => by
      have built : Lays ([(a, c)] ++ xs ++ ys) (Eval · 0 1)
        (Node.build .structLiteral [fields.length.toUInt64]
          (((a, c) :: xs ++ ys).map Prod.fst)) := .build _ (.refl _) rfl fun small => by
        have small : ys.length < 2 ^ 16 := by simp at small; omega
        have behind : (((a, c) :: xs ++ ys).map Prod.snd).drop
          (1 + fields.length.toUInt64.toNat) = ys.map Prod.snd := by
          rw [hs.toNat small, Nat.add_comm, ← List.length_map Prod.snd, hs.1, ← len]
          simp
        refine .split rfl (behind ▸ hs.2) ?_
        rw [behind, List.length_map, Tag.operands?, hs.toNat small]
      simpa using built
  | .addressOf operand => by
    unfold expr
    split
    · exact .more address_lowers fun a c h => .build [(a, c)] (.refl _) rfl fun _ =>
        .split rfl (by simpa) rfl
    · exact .more expr_lowers fun a c h => .build [(a, c)] (.refl _) rfl fun _ =>
        .split rfl (by simpa) rfl
  | .deref _ =>
      .more expr_lowers fun a c h => .build [(a, c)] (.refl _) rfl fun _ =>
      .split rfl (by simpa) rfl
  | .receive _ =>
      .more expr_lowers fun a c h => .build [(a, c)] (.refl _) rfl fun _ =>
      .split rfl (by simpa) rfl

theorem exprs_lowers : ∀ {es : List Expr}, LowersList (Values es.length) (exprs es)
  | [] => .nil ⟨rfl, by simp⟩
  | _ :: _ => .cons expr_lowers exprs_lowers fun _ _ h hs => ⟨by
      simp [hs.1], List.forall_mem_cons.2 ⟨h, hs.2⟩⟩

theorem optional_lowers : ∀ {e : Option Expr}, Lowers (Optional e.isSome) (optional e)
  | none => Lays.nothing.weaken fun _ h => h
  | some _ => expr_lowers.weaken fun _ h => h

theorem fieldValues_lowers : ∀ {fields : List (String × Expr)},
    LowersList (Values fields.length) (fieldValues fields)
  | [] => .nil ⟨rfl, by simp⟩
  | (_, _) :: _ => .cons expr_lowers fieldValues_lowers fun _ _ h hs => ⟨by
      simp [hs.1], List.forall_mem_cons.2 ⟨h, hs.2⟩⟩

theorem address_lowers : ∀ {e : Expr}, Lowers (Eval · 0 1) (address e)
  | .name _ => named_lowers rfl rfl
  | .member _ _ => .more expr_lowers fun a c h => .more text_lowers fun b d _ =>
    .build [(a, c), (b, d)] (.refl _) rfl fun _ => .split rfl (by simpa) rfl
  | .index _ _ => .more expr_lowers fun a c h => .more expr_lowers fun b d h' =>
    .build [(a, c), (b, d)] (.refl _) rfl fun _ => .split rfl (by simpa using ⟨h, h'⟩) rfl
  | .deref _ =>
      .more expr_lowers fun a c h => .build [(a, c)] (.refl _) rfl fun _ =>
      .split rfl (by simpa) rfl
  | .literal _ => .fail
  | .unary _ _ => .fail
  | .binary _ _ _ => .fail
  | .call _ _ => .fail
  | .func _ _ _ => .fail
  | .method _ _ => .fail
  | .slice _ _ _ => .fail
  | .make _ _ => .fail
  | .composite _ _ => .fail
  | .structLit _ _ => .fail
  | .addressOf _ => .fail
  | .receive _ => .fail

theorem declaration_lowers {name : String} {ty : GoType} :
    ∀ {value : Option Expr}, Lowers (Eval · 0 0) (declaration name ty value)
  | some _ =>
      .more type_lowers fun a c _ => .more expr_lowers fun b d h => .more text_lowers fun e f _ =>
    .build [(e, f), (a, c), (b, d)] (List.perm_append_comm :
    List.Perm ([(a, c), (b, d)] ++ [(e, f)]) ([(e, f)] ++ [(a, c), (b, d)])) rfl
      fun _ => .split rfl (by simpa) rfl
  | none =>
      .more type_lowers fun a c _ => .zero (List.mem_cons_self ..) fun b d h =>
      .more text_lowers fun e f _ =>
    .build [(e, f), (a, c), (b, d)] (List.perm_append_comm :
    List.Perm ([(a, c), (b, d)] ++ [(e, f)]) ([(e, f)] ++ [(a, c), (b, d)])) rfl
      fun _ => .split rfl (by simpa) rfl

theorem stmt_lowers : ∀ {s : Stmt}, Lowers (Runs · 0) (stmt s)
  | .declare _ _ _ => declaration_lowers.weaken fun _ h => .eval h
  | .assign _ _ => .more address_lowers fun a c h => .more expr_lowers fun b d h' =>
    .build [(a, c), (b, d)] (.refl _) rfl fun _ => .eval (.split rfl (by simpa using ⟨h', h⟩) rfl)
  | .step _ _ => .more address_lowers fun a c h =>
    .build [(a, c)] (.refl _) rfl fun _ => .eval (.split rfl (by simpa) rfl)
  | .expr _ =>
      .more expr_lowers fun a c h => .build [(a, c)] (.refl _) rfl fun _ =>
      .eval (.split rfl (by simpa) rfl)
  | .block _ => block_lowers stmts_lowers
  | .ifElse _ _ _ => .more expr_lowers fun a c h => .more (block_lowers stmts_lowers) fun b d h' =>
    .more optionalStmt_lowers fun o e h'' => .build [(a, c), (b, d), (o, e)] (.refl _) rfl fun _ =>
    .stmt (.ifElse h h' h'')
  | .forLoop _ _ _ _ =>
    .more loopVariable_lowers fun v cv _ => .more optionalStmt_lowers fun i ci hi =>
    .more condition_lowers fun c cc hc => .more optionalStmt_lowers fun u cu hu =>
      .more (block_lowers stmts_lowers) fun b cb hb =>
        .build [(i, ci), (c, cc), (u, cu), (b, cb), (v, cv)]
          (List.perm_append_comm : List.Perm ([(v, cv)] ++ [(i, ci), (c, cc), (u, cu), (b, cb)])
          ([(i, ci), (c, cc), (u, cu), (b, cb)] ++ [(v, cv)])) rfl
          fun _ => .stmt (.forLoop hi hc hu hb)
  | .breakLoop => .unit rfl (.stmt .breakLoop)
  | .continueLoop => .unit rfl (.stmt .continueLoop)
  | .returnFrom value =>
    .more optional_lowers fun a c h => .build [(a, c)] (.refl _) rfl fun _ =>
    .stmt (.returnFrom fun given => by
      cases value with
      | none => exact absurd h given
      | some => exact h)
  | .go _ _ => .more expr_lowers fun a c h => .list exprs_lowers fun ys hs =>
    .build ((a, c) :: ys) (.refl _) rfl fun small =>
    .eval (.split rfl (List.forall_mem_cons.2 ⟨h, hs.2⟩)
      (by simp [Tag.operands?, hs.toNat (Nat.lt_of_succ_lt small)]))
  | .send _ _ => .more expr_lowers fun a c h => .more expr_lowers fun b d h' =>
    .build [(a, c), (b, d)] (.refl _) rfl fun _ => .stmt (.chanSend h h')
  | .select _ => .list cases_lowers fun ys hs => .build ys (.refl _) rfl fun _ => .stmt (.select hs)

theorem stmts_lowers : ∀ {ss : List Stmt}, LowersList (Chunk · 0) (stmts ss)
  | [] => .nil .nil
  | _ :: _ => .cons stmt_lowers stmts_lowers fun _ _ => Chunk.cons

theorem optionalStmt_lowers : ∀ {s : Option Stmt},
    Lowers (fun c => c ≠ .nothing → Runs c 0) (optionalStmt s)
  | none => Lays.nothing.weaken fun _ h given => absurd h given
  | some _ => stmt_lowers.weaken fun _ h _ => h

theorem condition_lowers : ∀ {e : Option Expr}, Lowers (Eval · 0 1) (condition e)
  | none => literal_lowers (v := .bool true)
  | some _ => expr_lowers

theorem cases_lowers : ∀ {cs : List SelectCase},
    LowersList (fun cs => ∀ c ∈ cs, Clause c) (cases cs)
  | [] => .nil (by simp)
  | _ :: _ => .cons selectCase_lowers cases_lowers fun _ _ h hs => List.forall_mem_cons.2 ⟨h, hs⟩

theorem selectCase_lowers : ∀ {c : SelectCase}, Lowers Clause (selectCase c)
  | .send _ _ _ => .more expr_lowers fun a c h => .more expr_lowers fun b d h' =>
    .more (block_lowers stmts_lowers) fun e f h'' =>
    .build [(a, c), (b, d), (e, f)] (.refl _) rfl fun _ => .send h h' h''
  | .receive _ .discard _ =>
    .more expr_lowers fun a c h => .more (.unit (q := (Eval · 1 0)) rfl (.simple rfl))
    fun p cp hp =>
    .more (block_lowers stmts_lowers) fun b cb hb =>
    .inner [(a, c)] [(p, cp), (b, cb)] [(p, cp), (b, cb)] (.refl _) rfl fun e =>
      .build [(a, c), (e, _)] (.refl _) rfl fun _ =>
      .receive h (.stmt (.sequence (.eval (d := 0) hp (.cons hb .nil))))
  | .receive _ (.define _ _) _ =>
    .more expr_lowers fun a c h => .more text_lowers fun x cx _ => .more type_lowers fun y cy _ =>
    .inner [(a, c)] [(x, cx), (y, cy)] [(x, cx), (y, cy)] (.refl _) rfl fun v =>
    .list stmts_lowers fun ys hs =>
      .inner [(a, c)] ((v, _) :: ys) ((v, _) :: ys) (.refl _) rfl fun s =>
      .inner [(a, c)] [(s, _)] [(s, _)] (.refl _) rfl fun b =>
        .build [(a, c), (b, _)] (.refl _) rfl fun _ => .receive h (.stmt (.block (.stmt (.sequence
          (Chunk.cons (m := 1) (.eval (.simple rfl)) hs)))))
  | .receive _ (.assign _) _ => .more expr_lowers fun a c h => .more address_lowers fun t ct ht =>
    .more (.unit (q := (Eval · 2 0)) rfl (.simple rfl)) fun p cp hp =>
    .more (block_lowers stmts_lowers) fun b cb hb =>
      .inner [(a, c)] [(t, ct), (p, cp), (b, cb)] [(t, ct), (p, cp), (b, cb)] (.refl _) rfl fun e =>
        .build [(a, c), (e, _)] (.refl _) rfl fun _ => .receive h (.stmt (.sequence
          (.eval (d := 1) ht (.eval (d := 0) hp (.cons hb .nil)))))
  | .default _ =>
      .more (block_lowers stmts_lowers) fun a c h => .build [(a, c)] (.refl _) rfl fun _ =>
      .default h

end

end Lowering
end GoMachine
