import GoMachine.Proofs.Heap.Facts
import GoMachine.Proofs.Tasks.Code
/-!
# Roles of records

Each record of a machine has a `Role`, which it keeps while it is there: a link of the control stack
of a certain thread, a waker of a thread that waits for a value, the node of a certain piece of
code. What stands in the slots of a record has the roles that its own role asks for (`Conforms`), so
that a single write is checked where it is made. The role `loose` is that of values, and of records
that are not finished yet.

`Sees ρ σ F` says that the records `F` have the roles `ρ`, and that `σ` tells what each thread has
left to do (`Task`): its control stack with the code of the nodes, its stash, and the frames that it
is in. Most of it is about single records and threads (`Tells`); what is about the run queue as a
whole is `Lined`.

* `Conforms.congr`: only the roles of what a record refers to matter to it.
-/
namespace GoMachine

/-- What a thread waits for. -/
inductive Wait where
  /-- To go on. -/
  | turn
  /-- A value that comes onto its stash. -/
  | value
  /-- One of the cases of a `select`. -/
  | case
  deriving DecidableEq

inductive Side where
  | send | receive
  deriving DecidableEq

/-- What a chain is made of. -/
inductive Class where
  | any | runnable | wakers
  | waiting (side : Side)
  | control (thread : Address)
  | stash (thread : Address)
  deriving DecidableEq

/-- What a record is for. -/
inductive Role where
  | loose
  /-- A queue or stack. -/
  | holder (k : Class)
  | link (k : Class)
  | thread
  | env (thread : Address)
  /-- A frame inside of others. -/
  | frame (line : List Address)
  | waker (w : Wait)
  | waiting (side : Side)
  | code (c : Code)

/-- A node on a control stack. -/
structure Entry where
  node : Address
  code : Code

/-- What a thread has left to do. -/
structure Task where
  control : List Entry := []
  stash : List Address := []
  /-- The current frame and those around it. -/
  line : List Address := []
  /-- What it waits for if it is not runnable. -/
  waits : Option Wait := none
  /-- The link or the waker that holds it. -/
  place : Option Address := none
  /-- Whether it stands in the run queue. -/
  queued : Bool := false
  /-- The waiting instances by which it may be woken, with their wakers and bodies. -/
  offers : Set (Address × Address × Address) := ∅
  /-- Whether its record is filled, which it is but for a moment when it is new. -/
  made : Bool := true

abbrev Roles := Address → Role

/-- A frame with those around it, or nil. -/
def OnLine (ρ : Roles) (a : Address) : List Address → Prop
  | [] => a = .nil
  | f :: line => a = f ∧ ρ f = .frame line

def IsPart (ρ : Roles) (a : Address) : Code → Prop
  | .data => True
  | .nothing => a = .nil
  | .scope line => OnLine ρ a line
  | c@(.node ..) => ρ a = .code c

def Class.tag : Class → Tag
  | control _ => .control
  | stash _ => .stash
  | _ => .queue

def Class.Takes (ρ : Roles) (a : Address) : Class → Prop
  | any | stash _ => True
  | runnable => ρ a = .thread
  | wakers => ρ a = .waker .turn
  | waiting side => ρ a = .waiting side
  | control _ => ∃ c, ρ a = .code c

/-- A waker and a body: what happens to a thread whose operation completes. -/
def Completes (ρ : Roles) (w body : Address) : Side → Prop
  | .send =>
      body = .nil ∧ ρ w = .waker .turn ∨ ρ w = .waker .case ∧ ∃ c, ρ body = .code c ∧ Runs c 0
  | .receive =>
      body = .nil ∧ ρ w = .waker .value ∨ ρ w = .waker .case ∧ ∃ c, ρ body = .code c ∧ Runs c 1

def Code.IsFunction (c : Code) : Prop := 
  ∃ fs ks body ps, c = .node .functionLit fs ks (body :: ps) ∧ Runs body 0

/-- The tags of the records with a role. -/
def Role.Tagged (t : Tag) : Role → Prop
  | loose => t ≠ .thread
  | holder k => t = k.tag
  | link _ => t = .linkedList
  | thread => t = .thread
  | env _ => t = .env
  | frame _ => t = .frame
  | waker _ => t = .waker
  | waiting _ => t = .waitingInstance
  | code c => t = c.tag ∧ t.isControl

/-- What stands in the slots of records with tags that have one role only. -/
def LooseSlot (ρ : Roles) (b : Address) : Tag → Nat → Prop
  | .channel, 0 => ρ b = .holder .any
  | .channel, 1 => ρ b = .holder (.waiting .send)
  | .channel, 2 => ρ b = .holder (.waiting .receive)
  | .mutex, 0 | .semaphore, 0 | .waitGroup, 0 => ρ b = .holder .wakers
  | .function, 0 => ∃ c, ρ b = .code c ∧ c.IsFunction
  | .function, 1 => ∃ line, ρ b = .frame line
  | .scheduler, 0 => ρ b = .holder .runnable
  | _, _ => True

/-- What stands in a slot of the record at `a`. -/
def Slot (ρ : Roles) (a : Address) (t : Tag) (i : Nat) (b : Address) : Role → Prop
  | .loose => LooseSlot ρ b t i
  | .holder k => ρ b = .link k
  | .link k => if i = 0 then k.Takes ρ b else ρ b = .link k
  | .thread => ρ b = match i with
    | 0 => .holder (.control a)
    | 1 => .holder (.stash a)
    | _ => .env a
  | .env _ => i = 0 → ∃ line, ρ b = .frame line
  | .waker _ => ρ b = .thread
  | _ => True

/-- What a finished record says as a whole. -/
def Whole (ρ : Roles) (B : Body) : Role → Prop
  | .frame line => ∃ parent entries, B.children = [parent, entries] ∧ OnLine ρ parent line
  | .waiting side => ∃ w value body, B.children = [w, value, body] ∧ Completes ρ w body side
  | .code (.node t fs ks ps) => B = ⟨t, fs, ks⟩ ∧ List.Forall₂ (IsPart ρ) ks ps
  | .code _ => False
  | _ => True

structure Conforms (ρ : Roles) (a : Address) (B : Body) : Prop where
  tagged : (ρ a).Tagged B.tag
  slot : ∀ {i b}, B.children[i]? = some b → b = .nil ∨ Slot ρ a B.tag i b (ρ a)
  whole : Whole ρ B (ρ a)

def Lists (F : Facts) : Address → List Address → Prop
  | a, [] => a = .nil
  | a, v :: vs => ∃ next, F a = some ⟨.linkedList, [], [v, next]⟩ ∧ Lists F next vs

/-- A stack that is there, or is still to be made. -/
def Stacked (F : Facts) (a : Address) (t : Tag) (vs : List Address) : Prop :=
  a = .nil ∧ vs = [] ∨ ∃ top, F a = some ⟨t, [vs.length.toUInt64], [top]⟩ ∧ Lists F top vs

/-- An environment, or one that is still to be made. -/
def Scoped (F : Facts) (ρ : Roles) (e : Address) (line : List Address) : Prop :=
  e = .nil ∧ line = [] ∨ ∃ f structs, F e = some ⟨.env, [], [f, structs]⟩ ∧ OnLine ρ f line

/-- What a thread has left to do. -/
structure Shows (F : Facts) (ρ : Roles) (u : Address) (k : Task) : Prop where
  record : ∃ fs c s e, F u = some ⟨.thread, fs, [c, s, e]⟩ ∧
    Stacked F c .control (k.control.map Entry.node) ∧ Stacked F s .stash k.stash ∧
    Scoped F ρ e k.line
  codes : ∀ e ∈ k.control, ρ e.node = .code e.code
  filled : k.made → ∀ B, F u = some B → .nil ∉ B.children

/-- A record with such a role holds a thread that waits for this, or is runnable. -/
def Role.Keeps (w : Option Wait) : Role → Prop
  | link .runnable => w = none
  | waker w' => w = some w'
  | _ => False

/-- A waiting instance has a waker that holds a thread, and a body. -/
structure Offered (ρ : Roles) (F : Facts) (x w b u : Address) : Prop where
  waiting : ∃ j, ρ x = .waiting j
  waker : ∃ y, ρ w = .waker y
  parts : ∃ D, F x = some D ∧ D.children[0]? = some w ∧ D.children[2]? = some b
  holds : ∃ E, F w = some E ∧ E.children[0]? = some u
  some : u ≠ .nil

/-- The roles of records, and what the threads among them have left to do. -/
structure Tells (ρ : Roles) (σ : Address → Task) (F : Facts) : Prop where
  nil : ρ .nil = .loose
  dead : F .nil = none
  conforms : ∀ {a B}, F a = some B → Conforms ρ a B
  shows : ∀ {u B}, F u = some B → ρ u = .thread → Shows F ρ u (σ u)
  place : ∀ {x B u w}, F x = some B → B.children[0]? = some u → u ≠ .nil → (ρ x).Keeps w →
    (σ u).place = some x ∧ (σ u).waits = w
  offered : ∀ {x w b u}, Offered ρ F x w b u → (x, w, b) ∈ (σ u).offers

/-- The values of a queue from its first link to its last. -/
def Queues (F : Facts) : Address → Address → List Address → Prop
  | a, b, [] => a = .nil ∧ b = .nil
  | a, b, v :: vs => ∃ next, F a = some ⟨.linkedList, [], [v, next]⟩ ∧
    (vs = [] ∧ next = .nil ∧ b = a ∨ vs ≠ [] ∧ Queues F next b vs)

/-- There is one run queue at most, and the threads that stand there are in it. -/
structure Lined (ρ : Roles) (σ : Address → Task) (F : Facts) : Prop where
  single : ∀ {q q' B B'}, F q = some B → F q' = some B' → ρ q = .holder .runnable →
    ρ q' = .holder .runnable → q = q'
  queue : ∀ {q B}, F q = some B → ρ q = .holder .runnable → ∃ w front back ts,
    B = ⟨.queue, [w], [front, back]⟩ ∧ Queues F front back ts ∧ ∀ u, u ≠ .nil → (σ u).queued →
    u ∈ ts

/-- All that is seen of records and threads. -/
structure Sees (ρ : Roles) (σ : Address → Task) (F : Facts) : Prop extends Tells ρ σ F, Lined ρ σ F

/-- The thread that shows by a record with such a role what it has left to do. -/
def Role.owner? : Role → Option Address
  | env u | holder (.control u) | holder (.stash u) | link (.control u) | link (.stash u) => some u
  | _ => none

variable {ρ ρ' : Roles} {σ σ' : Address → Task} {F F' : Facts} {a b u x : Address} {B D : Body}
    {t : Tag}
  {i : Nat} {k : Class} {r : Role} {line vs : List Address} {n : UInt64} {c : Code}

/-! ## The same roles -/

theorem OnLine.congr (h : OnLine ρ a line) (same : ρ a = .loose ∨ ρ' a = ρ a) :
    OnLine ρ' a line := by
  cases line with
  | nil => exact h
  | cons f line =>
    obtain ⟨rfl, h⟩ := h
    exact ⟨rfl, (same.resolve_left (by simp [h])).trans h⟩

theorem IsPart.congr (h : IsPart ρ a c) (same : ρ a = .loose ∨ ρ' a = ρ a) : IsPart ρ' a c := by
  cases c with
  | data => trivial
  | nothing => exact h
  | scope line => exact OnLine.congr h same
  | node t fs ks ps =>
    have h : ρ a = _ := h
    exact (same.resolve_left (by simp [h])).trans h

/-- What is finished stays what it is. -/
theorem role_congr (h : ρ b = r) (loose : r ≠ .loose) (same : ρ b = .loose ∨ ρ' b = ρ b) :
    ρ' b = r := by
  rw [same.resolve_left (by rw [h]; exact loose), h]

theorem Class.Takes.congr (h : k.Takes ρ b) (same : ρ b = .loose ∨ ρ' b = ρ b) : k.Takes ρ' b := by
  cases k with
  | any | stash => trivial
  | runnable | wakers | waiting => exact role_congr h (by simp) same
  | control =>
    obtain ⟨c, h⟩ := h
    exact ⟨c, role_congr h (by simp) same⟩

theorem LooseSlot.congr (h : LooseSlot ρ b t i) (same : ρ b = .loose ∨ ρ' b = ρ b) :
    LooseSlot ρ' b t i := by
  unfold LooseSlot at h ⊢
  split at h
  iterate 6 exact role_congr h (by simp) same
  · obtain ⟨c, h, k⟩ := h
    exact ⟨c, role_congr h (by simp) same, k⟩
  · obtain ⟨l, h⟩ := h
    exact ⟨l, role_congr h (by simp) same⟩
  · exact role_congr h (by simp) same
  · trivial

theorem Slot.congr (h : Slot ρ a t i b r) (same : ρ b = .loose ∨ ρ' b = ρ b) :
    Slot ρ' a t i b r := by
  cases r with
  | loose => exact LooseSlot.congr h same
  | holder => exact role_congr h (by simp) same
  | link k =>
    simp only [Slot] at h ⊢
    split at h
    · next e => exact (if_pos e).mpr (h.congr same)
    · next e => exact (if_neg e).mpr (role_congr h (by simp) same)
  | thread =>
    refine role_congr h ?_ same
    split <;> simp
  | env =>
    intro hi
    obtain ⟨l, h⟩ := h hi
    exact ⟨l, role_congr h (by simp) same⟩
  | waker => exact role_congr h (by simp) same
  | _ => trivial

theorem Completes.congr {w body : Address} {side : Side} (h : Completes ρ w body side)
    (same : ρ w = .loose ∨ ρ' w = ρ w) (same' : ρ body = .loose ∨ ρ' body = ρ body) :
    Completes ρ' w body side := by
  cases side <;>
  · refine h.imp (fun h => ⟨h.1, role_congr h.2 (by simp) same⟩) fun ⟨h, c, hc, hr⟩ => ?_
    exact ⟨role_congr h (by simp) same, c, role_congr hc (by simp) same', hr⟩

/-- A record conforms still when what it refers to has the roles it had, or was not finished before.
-/
theorem Conforms.congr (h : Conforms ρ a B) (self : ρ' a = ρ a)
    (same : ∀ b ∈ B.children, ρ b = .loose ∨ ρ' b = ρ b) : Conforms ρ' a B := by
  refine ⟨self ▸ h.tagged, fun {i b} hb => ?_, ?_⟩
  · rw [self]
    exact (h.slot hb).imp_right fun k => k.congr (same b (List.mem_of_getElem? hb))
  · rw [self]
    have w := h.whole
    unfold Whole at w ⊢
    split at w
    · obtain ⟨p, e, hk, on⟩ := w
      exact ⟨p, e, hk, on.congr (same p (by simp [hk]))⟩
    · obtain ⟨w, v, b, hk, k⟩ := w
      exact ⟨w, v, b, hk, k.congr (same w (by simp [hk])) (same b (by simp [hk]))⟩
    · obtain ⟨rfl, parts⟩ := w
      refine ⟨rfl, ?_⟩
      rw [List.forall₂_iff_get] at parts ⊢
      exact ⟨parts.1, fun i h₁ h₂ => (parts.2 i h₁ h₂).congr (same _ (List.get_mem ..))⟩
    · exact w
    · trivial

end GoMachine
