import Mathlib.Logic.Hydra
import ShapeGrammar.Proofs.Configuration
import ShapeGrammar.Proofs.Dependence
import ShapeGrammar.Proofs.Recursion

/-! Grammars that come to an end. If names can be ranked so that bodies only lead to names of lower
rank, then every step takes one successor out of the work that is left and puts smaller ones in, as
many as it likes: heads of a hydra, and no such game goes on for ever. -/
namespace ShapeGrammar
variable {α σ : Type}

section Size
variable [SizeOf α] [SizeOf σ] {s : σ}

mutual

theorem Item.sizeOf_leaves (i : Item α σ) (h : s ∈ i.leaves) : sizeOf s < sizeOf i := by
  match i with
  | .step size t =>
    obtain rfl : s = t := by simpa [Item.leaves] using h
    simp only [Item.step.sizeOf_spec]
    omega
  | .nested items _ =>
    rw [Item.leaves] at h
    have := sizeOf_leavesOf items h
    simp only [Item.nested.sizeOf_spec]
    omega

theorem sizeOf_leavesOf (items : List (Item α σ)) (h : s ∈ leavesOf items) :
    sizeOf s < sizeOf items := by
  match items with
  | [] => simp [leavesOf] at h
  | i :: is =>
    simp only [List.cons.sizeOf_spec]
    rcases List.mem_append.mp h with hi | his
    · have := i.sizeOf_leaves hi
      omega
    · have := sizeOf_leavesOf is his
      omega

end

theorem Operation.sizeOf_parts {op : Operation α σ} (h : s ∈ op.parts) : sizeOf s < sizeOf op := by
  cases op with
  | translate _ | rotate _ | scale _ | extrude _ _ => simp [parts] at h
  | componentSplit c ks =>
    obtain ⟨k, hk, rfl⟩ := List.mem_map.mp h
    have hlt := List.sizeOf_lt_of_mem hk
    obtain ⟨selector, s⟩ := k
    simp only [Selection.mk.sizeOf_spec, componentSplit.sizeOf_spec] at hlt ⊢
    omega
  | split axis adjustment p =>
    obtain ⟨items, repeats⟩ := p
    have hlt := sizeOf_leavesOf items h
    simp only [split.sizeOf_spec, Pattern.mk.sizeOf_spec]
    omega

end Size

/-- What holds of the symbols, and of an operation if of all its parts, holds of every successor. -/
theorem Successor.parts_induction {P : Successor α → Prop} (symbol : ∀ name, P (.symbol name))
    (operation : ∀ op : Operation α (Successor α), (∀ s ∈ op.parts, P s) → P (.operation op)) :
    ∀ s, P s
  | .symbol name => symbol name
  | .operation op => operation op fun s _ => parts_induction symbol operation s
termination_by s => sizeOf s
decreasing_by
  rename_i hs
  have := op.sizeOf_parts hs
  simp only [Successor.operation.sizeOf_spec]
  omega

theorem Agenda.coe_toList_yield (a : Agenda σ) (ys : List σ) :
    ((a.yield ys).toList : Multiset σ) = ys + a.toList := by
  simp only [yield, toList, ← Multiset.coe_add]
  ac_rfl

@[simp] theorem Successor.contains_symbol_symbol {name other : String} :
    (symbol name : Successor α).Contains (.symbol other) ↔ name = other := by
  constructor
  · intro h
    cases h
    rfl
  · rintro rfl
    exact .refl _

@[simp] theorem Successor.contains_operation_symbol {op : Operation α (Successor α)} {name : String} :
    (operation op).Contains (.symbol name) ↔ ∃ s ∈ op.parts, s.Contains (.symbol name) := by
  constructor
  · intro h
    cases h with
    | branch hs hc => exact ⟨_, hs, hc⟩
  · rintro ⟨s, hs, hc⟩
    exact .branch hs hc

namespace Grammar

/-- All symbols with a rule that are written in a body, at any depth, rank lower than the name that
the body stands for. -/
def Ranked (g : Grammar α) (rank : String → Nat) : Prop :=
  ∀ name r s other, g.rule? name = some r → s ∈ r.successors → s.Contains (.symbol other) →
    g.rule? other ≠ none → rank other < rank name

theorem ranked_of_rules {g : Grammar α} {rank : String → Nat}
    (h : ∀ r ∈ g.rules, ∀ s ∈ r.successors, ∀ other, s.Contains (.symbol other) →
      g.rule? other ≠ none → rank other < rank r.predecessor) : g.Ranked rank := by
  intro name r s other hr hs hc hother
  exact predecessor_of_rule? hr ▸ h r (mem_rules_of_rule? hr) s hs other hc hother

/-- A step may leave the first successor in place of the second. -/
inductive Leaves (g : Grammar α) : Successor α → Successor α → Prop
  | body {s t b} : g.body? s = some b → t ∈ b → Leaves g t s
  | part {op t} : t ∈ op.parts → Leaves g t (.operation op)

variable {g : Grammar α} {rank : String → Nat}

theorem acc_of_symbols (s : Successor α)
    (h : ∀ name, s.Contains (.symbol name) → Acc g.Leaves (.symbol name)) : Acc g.Leaves s := by
  induction s using Successor.parts_induction with
  | symbol name => exact h name (.refl _)
  | operation op ih =>
    refine ⟨_, fun t ht => ?_⟩
    cases ht with
    | body hb => cases hb
    | part ht => exact ih t ht fun name hc => h name (.branch ht hc)

theorem Ranked.acc_symbol (hg : g.Ranked rank) (name : String) : Acc g.Leaves (.symbol name) := by
  induction hk : rank name using Nat.strong_induction_on generalizing name with
  | _ k ih =>
    subst hk
    refine ⟨_, fun t ht => ?_⟩
    cases ht with
    | body hb ht =>
      obtain ⟨r, hr, rfl⟩ := Option.map_eq_some_iff.mp hb
      refine acc_of_symbols t fun other hc => ?_
      by_cases hother : g.rule? other = none
      · refine ⟨_, fun u hu => ?_⟩
        cases hu with
        | body hb => simp [body?, hother] at hb
      · exact ih (rank other) (hg name r t other hr ht hc hother) other rfl

theorem Ranked.wellFounded (hg : g.Ranked rank) : WellFounded g.Leaves :=
  ⟨fun s => acc_of_symbols s fun name _ => hg.acc_symbol name⟩

variable [Scalar α]

theorem leaves_of_act {s t : Successor α} {c d : Scene α} {ys : List (Successor α)}
    (ha : g.act s c = .ok (ys, d)) (ht : t ∈ ys) : g.Leaves t s := by
  obtain ⟨op, rfl, hpart⟩ := mem_parts_of_act ha ht
  exact .part hpart

variable [Numeral α] {a b : State α}

/-- A step takes one successor out of the work left and puts in what it leaves in its place. -/
theorem cutExpand_of_step (hs : g.step a = some (.ok b)) :
    Relation.CutExpand g.Leaves (b.agenda.toList : Multiset (Successor α)) a.agenda.toList := by
  obtain ⟨s, rest, hn, hp⟩ := step_cases hs
  have hwork : (a.agenda.toList : Multiset (Successor α)) = {s} + rest.toList := by
    rw [Agenda.toList_of_next? hn, ← Multiset.cons_coe, Multiset.singleton_add]
  obtain ⟨left, hleft, hwork'⟩ : ∃ left : List (Successor α), (∀ t ∈ left, g.Leaves t s) ∧
      (b.agenda.toList : Multiset (Successor α)) = left + rest.toList := by
    rcases perform_cases hp with ⟨body, hb, rfl⟩ | ⟨-, ys, d, ha, rfl⟩
    · exact ⟨body, fun t ht => .body hb ht, by rw [Agenda.toList_unfold, Multiset.coe_add]⟩
    · exact ⟨ys, fun t ht => leaves_of_act ha ht, rest.coe_toList_yield ys⟩
  refine ⟨left, s, hleft, ?_⟩
  rw [hwork, hwork']
  ac_rfl

theorem Ranked.wellFounded_step (hg : g.Ranked rank) :
    WellFounded fun b a : State α => g.step a = some (.ok b) :=
  Subrelation.wf cutExpand_of_step
    (InvImage.wf (fun a : State α => (a.agenda.toList : Multiset (Successor α))) hg.wellFounded.cutExpand)

theorem exists_ends (hg : WellFounded fun b a : State α => g.step a = some (.ok b)) (a : State α)
    (n : Nat) : ∃ e, g.Ends none a n e := by
  induction a using hg.induction generalizing n with
  | _ a ih =>
    rcases hs : g.step a with _ | err | b
    · exact ⟨_, .done hs⟩
    · exact ⟨_, .broken (permits_none n) hs⟩
    · obtain ⟨e, he⟩ := ih b hs (n + 1)
      exact ⟨e, .step (permits_none n) hs he⟩

theorem exists_least_fuel {ax : Axiom α} {recording : Bool} {e : Ending α Unit}
    (h : g.Ends none (.start ax recording) 0 e) :
    ∃ least, ∀ fuel ≥ least, g.derive? ⟨none, recording⟩ ax fuel = some e.answer := by
  cases e with
  | reached v c m =>
    obtain ⟨fuel, hf⟩ := ends_reached_iff.mp h
    refine ⟨m, fun fuel' hle => ?_⟩
    exact derive?_of_finished ⟨none, recording⟩ ((advance_of_finished fuel' hf).1 hle)
  | broken err m =>
    obtain ⟨fuel, hf⟩ := ends_broken_iff.mp h
    refine ⟨m, fun fuel' hle => ?_⟩
    exact derive?_of_failed ⟨none, recording⟩ ((advance_of_failed fuel' hf).1 hle)

/-- By a grammar that can be ranked every derivation ends without a limit, in success or in failure,
from whatever symbol and shape: the recursion has an ending, and from some fuel on its answer is that
of the derivation. -/
theorem ranked_derivations_end (g : Grammar α) {rank : String → Nat} (hg : g.Ranked rank) (ax : Axiom α)
    (recording : Bool) :
    ∃ e, g.Derives none [.symbol ax.symbol] ((Scene.empty recording).push ax.shape) 0 e ∧
      ∃ least, ∀ fuel ≥ least, g.derive? ⟨none, recording⟩ ax fuel = some e.answer := by
  obtain ⟨e, he⟩ := exists_ends hg.wellFounded_step (.start ax recording) 0
  exact ⟨e, derives_iff_ends.mpr he, exists_least_fuel he⟩

def storey : Successor Float32 := .operation (.split .x (some .adjust) (.ofItems
  [.step (.relative (.constant 1 .plain)) (.symbol "window"),
    .step (.relative (.constant 2 .plain)) (.symbol "window")]))

/-- A tower of a hall and a storey, which is written within. -/
def tower : Rule Float32 where
  predecessor := "tower"
  successors := [.operation (.split .y none (.ofItems
    [.step (.absolute (.constant 1 .plain)) (.symbol "hall"),
      .nested [.step (.relative (.constant 1 .plain)) storey] true]))]

def windows : Rule Float32 := ⟨"window", [.symbol "pane"]⟩

def city : Grammar Float32 := ⟨[.rule tower, .rule windows]⟩

def cityRank (name : String) : Nat := if name = "tower" then 1 else 0

theorem ranked_city : city.Ranked cityRank := by
  refine ranked_of_rules (List.forall_mem_cons.mpr ⟨?_, List.forall_mem_singleton.mpr ?_⟩)
  · refine List.forall_mem_singleton.mpr fun other hc _ => ?_
    have hother : "hall" = other ∨ "window" = other := by
      simpa [storey, Pattern.ofItems, Operation.parts, leavesOf, Item.leaves] using hc
    rcases hother with rfl | rfl <;> decide
  · refine List.forall_mem_singleton.mpr fun other hc hother => ?_
    obtain rfl : "pane" = other := by simpa using hc
    exact absurd rfl hother

theorem ranked_derivations_end_city :
    ∃ d least, d.steps = 8 ∧
      ∀ fuel ≥ least, city.derive? ⟨none, true⟩ ⟨"tower", .unitBox⟩ fuel = some (.ok d) := by
  obtain ⟨e, -, least, hleast⟩ := ranked_derivations_end city ranked_city ⟨"tower", .unitBox⟩ true
  obtain ⟨c, hc⟩ : ∃ c, city.advance 8 0 (.start ⟨"tower", .unitBox⟩ true) = .finished c 8 := ⟨_, rfl⟩
  have hd := derive?_of_finished ⟨none, true⟩
    ((advance_of_finished (8 + least) hc).1 (Nat.le_add_right 8 least))
  have he : e.answer = .ok _ :=
    Option.some.inj ((hleast (8 + least) (Nat.le_add_left least 8)).symm.trans hd)
  exact ⟨_, least, rfl, fun fuel hle => he ▸ hleast fuel hle⟩

end Grammar
end ShapeGrammar
