import ShapeGrammar.Proofs.Branches
import ShapeGrammar.Proofs.Exec
import ShapeGrammar.Proofs.Lookup

/-! What is handed on in a derivation. A property of successors that passes from a symbol to its body
and from an operation to the successors written in it holds of all that is ever left to do; a
property of shapes that such operations hand on to the shapes they make holds of every shape that is
ever open, current, finished or recorded. One property of the former kind is that all operations
written in a successor are of one sort. -/
namespace ShapeGrammar
variable {α : Type}

/-- A successor holds itself and all that is written in it, at any depth. -/
inductive Successor.Contains : Successor α → Successor α → Prop
  | refl (s) : Contains s s
  | branch {op s t} : s ∈ op.parts → Contains s t → Contains (.operation op) t

/-- All operations written in a successor, at any depth, are of one sort. -/
def Successor.UsesOnly (R : Operation α (Successor α) → Prop) (s : Successor α) : Prop :=
  ∀ op, s.Contains (.operation op) → R op

def Grammar.UsesOnly (R : Operation α (Successor α) → Prop) (g : Grammar α) : Prop :=
  ∀ r ∈ g.rules, ∀ s ∈ r.successors, s.UsesOnly R

namespace Successor
variable {R : Operation α (Successor α) → Prop}

@[simp] theorem usesOnly_symbol (name : String) : (symbol name).UsesOnly R := by
  intro op h
  cases h

@[simp] theorem usesOnly_operation {op : Operation α (Successor α)} :
    (operation op).UsesOnly R ↔ R op ∧ ∀ s ∈ op.parts, s.UsesOnly R := by
  constructor
  · exact fun h => ⟨h op (.refl _), fun s hs inner hc => h inner (.branch hs hc)⟩
  · rintro ⟨hop, hparts⟩ inner hc
    cases hc with
    | refl => exact hop
    | branch hs hc => exact hparts _ hs inner hc

end Successor

theorem Grammar.UsesOnly.of_body {R : Operation α (Successor α) → Prop} {g : Grammar α}
    (hg : g.UsesOnly R) {s : Successor α} {b : List (Successor α)} (hb : g.body? s = some b) :
    ∀ t ∈ b, t.UsesOnly R := by
  cases s with
  | operation op => cases hb
  | symbol name =>
    obtain ⟨r, hr, rfl⟩ := Option.map_eq_some_iff.mp hb
    exact hg r (mem_rules_of_rule? hr)

theorem Agenda.mem_toList_yield {σ : Type} {a : Agenda σ} {ys : List σ} {s : σ} :
    s ∈ (a.yield ys).toList ↔ s ∈ ys ∨ s ∈ a.toList := by
  simp only [yield, toList, List.mem_append]
  grind

theorem Agenda.mem_of_next? {σ : Type} {a b : Agenda σ} {s : σ} (h : a.next? = some (s, b)) :
    s ∈ a.toList := by
  rw [toList_of_next? h]
  exact List.mem_cons_self

structure Scene.All (P : Shape α → Prop) (c : Scene α) : Prop where
  stack : ∀ h ∈ c.stack, P h
  current : ∀ h, c.current = some h → P h
  finished : ∀ h ∈ c.finished.toList, P h
  record : ∀ h ∈ c.record.toList, P h

theorem Scene.all_true (c : Scene α) : c.All fun _ => True := by
  constructor <;> intros <;> trivial

namespace Scene.All
variable {P : Shape α → Prop} {c d : Scene α} {h : Shape α}

theorem push (hc : c.All P) (hh : P h) : (c.push h).All P where
  stack := List.forall_mem_cons.mpr ⟨hh, hc.stack⟩
  current := hc.current
  finished := hc.finished
  record := by
    rw [record_push]
    split
    · exact List.forall_mem_append.mpr ⟨hc.record, List.forall_mem_singleton.mpr hh⟩
    · exact hc.record

theorem pushAll {hs : List (Shape α)} (hc : c.All P) (hhs : ∀ k ∈ hs, P k) : (c.pushAll hs).All P := by
  induction hs with
  | nil => exact hc
  | cons k hs ih =>
    obtain ⟨hk, hhs⟩ := List.forall_mem_cons.mp hhs
    exact (ih hhs).push hk

theorem pop (hc : c.All P) (hp : c.pop = .ok (h, d)) : P h ∧ d.All P := by
  rw [Scene.pop] at hp
  split at hp
  · cases hp
  · next k below hstack =>
    cases hp
    have hall := hc.stack
    rw [hstack, List.forall_mem_cons] at hall
    refine ⟨hall.1, hall.2, fun k hk => ?_, hc.finished, hc.record⟩
    cases hk
    exact hall.1

theorem retire (hc : c.All P) (hr : c.retire = .ok d) : d.All P := by
  rw [Scene.retire] at hr
  split at hr
  · cases hr
  · next k below hstack =>
    cases hr
    have hall := hc.stack
    rw [hstack, List.forall_mem_cons] at hall
    refine ⟨hall.2, hc.current, ?_, hc.record⟩
    rw [Array.toList_push]
    exact List.forall_mem_append.mpr ⟨hc.finished, List.forall_mem_singleton.mpr hall.1⟩

theorem start {ax : Axiom α} (hax : P ax.shape) (recording : Bool) :
    (State.start ax recording).scene.All P := by
  have hempty : (Scene.empty recording : Scene α).All P := by
    constructor <;> simp [Scene.empty]
  exact hempty.push hax

end Scene.All

structure State.All (Q : Successor α → Prop) (P : Shape α → Prop) (a : State α) : Prop where
  agenda : ∀ s ∈ a.agenda.toList, Q s
  scene : a.scene.All P

theorem State.All.start {Q : Successor α → Prop} {P : Shape α → Prop} {ax : Axiom α}
    (hs : Q (.symbol ax.symbol)) (hax : P ax.shape) (recording : Bool) :
    (State.start ax recording).All Q P :=
  ⟨List.forall_mem_singleton.mpr hs, .start hax recording⟩

variable [Scalar α]

theorem Grammar.mem_parts_of_act {g : Grammar α} {s t : Successor α} {c d : Scene α}
    {ys : List (Successor α)} (ha : g.act s c = .ok (ys, d)) (ht : t ∈ ys) :
    ∃ op, s = .operation op ∧ t ∈ op.parts := by
  obtain ⟨k, below, o, -, ho, rfl, -⟩ := exists_treat_of_act ha
  cases s with
  | symbol name => cases ho; cases ht
  | operation op =>
    obtain ⟨e, he, rfl⟩ := treat_operation.mp ho
    exact ⟨op, rfl, op.apply_successors he t ht⟩

/-- An operation that hands a property of a shape on to what it makes of it. -/
def Grammar.HandsOn (g : Grammar α) (P : Shape α → Prop) (op : Operation α (Successor α)) : Prop :=
  ∀ h e, P h → op.apply ⟨g.attr?, some h⟩ h = .ok e → ∀ k ∈ e.shapes, P k

theorem Scene.apply_of_pop (g : Grammar α) (op : Operation α (Successor α)) {c d : Scene α} {h : Shape α}
    (hp : c.pop = .ok (h, d)) :
    c.apply g op = match op.apply ⟨g.attr?, some h⟩ h with
      | .error e => (.error e, d)
      | .ok e => (.ok e.successors, d.pushAll e.shapes) := by
  have hd : d.current = some h := by
    rw [Scene.pop] at hp
    split at hp <;> cases hp
    rfl
  simp only [Scene.apply, hp, Scene.env, hd]
  rfl

theorem Scene.All.apply {g : Grammar α} {P : Shape α → Prop} {c : Scene α} (hc : c.All P)
    {op : Operation α (Successor α)} (hop : g.HandsOn P op) : (c.apply g op).2.All P := by
  cases hp : c.pop with
  | error e =>
    rw [Scene.apply, hp]
    exact hc
  | ok p =>
    obtain ⟨h, d⟩ := p
    obtain ⟨hh, hd⟩ := hc.pop hp
    rw [Scene.apply_of_pop g op hp]
    split
    · exact hd
    · next e he => exact hd.pushAll (hop h e hh he)

/-- A property of successors that bodies and branches inherit, together with one of shapes that
operations with the former hand on. -/
structure Grammar.Inherits (g : Grammar α) (Q : Successor α → Prop) (P : Shape α → Prop) : Prop where
  body : ∀ s b, Q s → g.body? s = some b → ∀ t ∈ b, Q t
  part : ∀ op, Q (.operation op) → ∀ t ∈ op.parts, Q t
  shape : ∀ op, Q (.operation op) → g.HandsOn P op

theorem Grammar.UsesOnly.inherits {R : Operation α (Successor α) → Prop} {g : Grammar α}
    (hg : g.UsesOnly R) {P : Shape α → Prop} (hP : ∀ op, R op → g.HandsOn P op) :
    g.Inherits (Successor.UsesOnly R) P where
  body _ _ _ hb := hg.of_body hb
  part _ hop := (Successor.usesOnly_operation.mp hop).2
  shape op hop := hP op (Successor.usesOnly_operation.mp hop).1

theorem Grammar.UsesOnly.inherits_true {R : Operation α (Successor α) → Prop} {g : Grammar α}
    (hg : g.UsesOnly R) : g.Inherits (Successor.UsesOnly R) fun _ => True :=
  hg.inherits fun _ _ _ _ _ _ _ _ => trivial

namespace Grammar
variable {g : Grammar α} {Q : Successor α → Prop} {P : Shape α → Prop} {s : Successor α} {c d : Scene α}

theorem Inherits.act (hg : g.Inherits Q P) (hs : Q s) (hc : c.All P) {ys : List (Successor α)}
    (ha : g.act s c = .ok (ys, d)) : (∀ t ∈ ys, Q t) ∧ d.All P := by
  constructor
  · intro t ht
    obtain ⟨op, rfl, hpart⟩ := mem_parts_of_act ha ht
    exact hg.part op hs t hpart
  · cases s with
    | symbol name =>
      obtain ⟨d', hd, heq⟩ := map_eq_ok.mp ha
      cases heq
      exact hc.retire hd
    | operation op =>
      have hd := hc.apply (hg.shape op hs)
      simp only [Grammar.act] at ha
      split at ha
      · next heq =>
        cases ha
        rwa [heq] at hd
      · cases ha

variable [Numeral α] {a b : State α} {k : Nat}

theorem Inherits.step (hg : g.Inherits Q P) (ha : a.All Q P) (hs : g.step a = some (.ok b)) :
    b.All Q P := by
  obtain ⟨s, rest, hn, hp⟩ := step_cases hs
  have hagenda := ha.agenda
  rw [Agenda.toList_of_next? hn, List.forall_mem_cons] at hagenda
  obtain ⟨hq, hrest⟩ := hagenda
  rcases perform_cases hp with ⟨body, hb, rfl⟩ | ⟨-, ys, d, hact, rfl⟩
  · refine ⟨?_, ha.scene⟩
    rw [Agenda.toList_unfold]
    exact List.forall_mem_append.mpr ⟨hg.body s body hq hb, hrest⟩
  · obtain ⟨hys, hd⟩ := hg.act hq ha.scene hact
    refine ⟨fun t ht => ?_, hd⟩
    rcases Agenda.mem_toList_yield.mp ht with ht | ht
    · exact hys t ht
    · exact hrest t ht

theorem Inherits.exec (hg : g.Inherits Q P) (hx : g.Exec a k b) (ha : a.All Q P) : b.All Q P :=
  hx.invariant (fun _ _ hx hs => hg.step hx hs) ha

end Grammar
end ShapeGrammar
