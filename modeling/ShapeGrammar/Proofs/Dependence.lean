import ShapeGrammar.Binary32
import ShapeGrammar.Proofs.Inheritance
import ShapeGrammar.Proofs.Lookup

/-! What a derivation depends on. From a symbol it can come only to the names in the bodies it can
come to, and it reads only the attributes named there. So of a grammar only the declarations that
count for these names matter, in whatever order they stand and whatever else is declared. -/
namespace ShapeGrammar
variable {α : Type}

inductive Statement.SameName : Statement α → Statement α → Prop
  | rule {r t} : r.predecessor = t.predecessor → SameName (.rule r) (.rule t)
  | attr (n v w) : SameName (.attr n v) (.attr n w)

namespace Statement.SameName
variable {s t : Statement α} {ss : List (Statement α)}

theorem rule? (h : s.SameName t) (ht : t ∈ ss) (name : String) :
    Grammar.rule? ⟨[s]⟩ name = none ∨ Grammar.rule? ⟨ss⟩ name ≠ none := by
  cases h with
  | @rule r t hp =>
    by_cases hname : r.predecessor = name
    · rw [hp] at hname
      exact .inr (hname ▸ Grammar.rule?_ne_none_of_mem ht)
    · exact .inl (by rw [Grammar.rule?_rule, if_neg hname])
  | attr n v w => exact .inl (Grammar.rule?_attr n v name)

theorem attr? (h : s.SameName t) (ht : t ∈ ss) (name : String) :
    Grammar.attr? ⟨[s]⟩ name = none ∨ Grammar.attr? ⟨ss⟩ name ≠ none := by
  cases h with
  | rule => exact .inl (Grammar.attr?_rule _ name)
  | attr n v w =>
    by_cases hname : n = name
    · exact .inr (hname ▸ Grammar.attr?_ne_none_of_mem ht)
    · exact .inl (by rw [Grammar.attr?_attr, if_neg hname])

end Statement.SameName

namespace Grammar

/-- The names that a derivation from a symbol can come to. -/
inductive Needs (g : Grammar α) (start : String) : String → Prop
  | start : Needs g start start
  | body {name other r s} : Needs g start name → g.rule? name = some r → s ∈ r.successors →
      s.Contains (.symbol other) → Needs g start other

def Reads (g : Grammar α) (start n : String) : Prop :=
  ∃ name r s op, g.Needs start name ∧ g.rule? name = some r ∧ s ∈ r.successors ∧
    s.Contains (.operation op) ∧ n ∈ op.reads

/-- The same bodies for all names that a derivation from a symbol can come to, and the same values of
all attributes that it can read. -/
structure Agrees (g g' : Grammar α) (start : String) : Prop where
  rules : ∀ name, g.Needs start name → (g.rule? name).map (·.successors) = (g'.rule? name).map (·.successors)
  attrs : ∀ n, g.Reads start n → g.attr? n = g'.attr? n

/-- A successor that leads only to what a derivation from `start` needs and reads. -/
structure Covers (g : Grammar α) (start : String) (s : Successor α) : Prop where
  symbols : ∀ name, s.Contains (.symbol name) → g.Needs start name
  reads : ∀ op, s.Contains (.operation op) → ∀ n ∈ op.reads, g.Reads start n

variable {g g' : Grammar α} {start : String} {s : Successor α}

theorem covers_start (g : Grammar α) (start : String) : g.Covers start (.symbol start) where
  symbols name h := by
    cases h
    exact .start
  reads op h := by cases h

theorem Covers.of_body {b : List (Successor α)} (h : g.Covers start s) (hb : g.body? s = some b) :
    ∀ t ∈ b, g.Covers start t := by
  intro t ht
  cases s with
  | operation op => cases hb
  | symbol name =>
    obtain ⟨r, hr, rfl⟩ := Option.map_eq_some_iff.mp hb
    have hname := h.symbols name (.refl _)
    exact ⟨fun other hc => .body hname hr ht hc, fun op hc n hn => ⟨name, r, t, op, hname, hr, ht, hc, hn⟩⟩

theorem Covers.part {op : Operation α (Successor α)} (h : g.Covers start (.operation op)) :
    ∀ t ∈ op.parts, g.Covers start t := by
  intro t ht
  exact ⟨fun name hc => h.symbols name (.branch ht hc), fun inner hc => h.reads inner (.branch ht hc)⟩

variable [Scalar α]

theorem inherits_covers (g : Grammar α) (start : String) :
    g.Inherits (g.Covers start) fun _ => True where
  body _ _ hs hb := hs.of_body hb
  part _ hop := hop.part
  shape _ _ _ _ _ _ _ _ := trivial

variable [Numeral α] {a b : State α}

theorem covers_of_step (ha : ∀ s ∈ a.agenda.toList, g.Covers start s) (hs : g.step a = some (.ok b)) :
    ∀ s ∈ b.agenda.toList, g.Covers start s :=
  ((inherits_covers g start).step ⟨ha, a.scene.all_true⟩ hs).agenda

theorem Agrees.step (h : g.Agrees g' start) (ha : ∀ s ∈ a.agenda.toList, g.Covers start s) :
    g.step a = g'.step a := by
  cases hn : a.agenda.next? with
  | none => rw [step_eq_none.mpr hn, step_eq_none.mpr hn]
  | some p =>
    obtain ⟨s, rest⟩ := p
    have hcover : g.Covers start s := ha s (Agenda.mem_of_next? hn)
    have hbody : g.body? s = g'.body? s := by
      cases s with
      | operation op => rfl
      | symbol name => exact h.rules name (hcover.symbols name (.refl _))
    have hact : g.act s a.scene = g'.act s a.scene := by
      refine act_congr fun op hop n hread => h.attrs n ?_
      subst hop
      exact hcover.reads op (.refl _) n hread
    rw [step_of_next? hn, step_of_next? hn, perform_congr hbody hact]

theorem Agrees.advance (h : g.Agrees g' start) (fuel n : Nat)
    (ha : ∀ s ∈ a.agenda.toList, g.Covers start s) : g.advance fuel n a = g'.advance fuel n a := by
  induction fuel generalizing n a with
  | zero => rfl
  | succ fuel ih =>
    have hstep := h.step ha
    rcases hs : g.step a with _ | e | b
    · rw [advance_of_none hs, advance_of_none (hstep ▸ hs)]
    · rw [advance_of_error hs, advance_of_error (hstep ▸ hs)]
    · rw [advance_of_ok hs, advance_of_ok (hstep ▸ hs), ih (n + 1) (covers_of_step ha hs)]

/-- The same answers to derivations from this symbol, whatever the shape and the configuration. -/
def SameFrom (g g' : Grammar α) (start : String) : Prop :=
  ∀ config shape fuel, g.derive? config ⟨start, shape⟩ fuel = g'.derive? config ⟨start, shape⟩ fuel

theorem Agrees.sameFrom (h : g.Agrees g' start) : g.SameFrom g' start := by
  intro config shape fuel
  have hstart : ∀ s ∈ (State.start ⟨start, shape⟩ config.recording).agenda.toList, g.Covers start s :=
    List.forall_mem_singleton.mpr (covers_start g start)
  rw [derive?, derive?, h.advance _ 0 hstart]

theorem sameFrom_of_lookup (hr : ∀ name, g.rule? name = g'.rule? name)
    (ha : ∀ n, g.attr? n = g'.attr? n) : g.SameFrom g' start :=
  Agrees.sameFrom ⟨fun name _ => by rw [hr name], fun n _ => ha n⟩

/-- A derivation from a symbol comes out the same by any grammar with the same bodies and values for
what it can come to and read: so statements of different names may stand in any order, of several
for one name all but the last may be left out, and rules and attributes may be added for names that
it cannot come to or read. -/
theorem only_needed_declarations_count :
    (∀ (g g' : Grammar α) start, g.Agrees g' start → g.SameFrom g' start) ∧
    (∀ g g' : Grammar α,
      (∀ name, g.rules.filter (·.predecessor == name) = g'.rules.filter (·.predecessor == name)) →
      (∀ n, g.attrs.filter (·.1 == n) = g'.attrs.filter (·.1 == n)) → ∀ start, g.SameFrom g' start) ∧
    (∀ (xs : List (Statement α)) s ys, (∃ t ∈ ys, s.SameName t) →
      ∀ start, SameFrom ⟨xs ++ s :: ys⟩ ⟨xs ++ ys⟩ start) ∧
    (∀ (xs : List (Statement α)) r ys start, ¬ Needs ⟨xs ++ ys⟩ start r.predecessor →
      SameFrom ⟨xs ++ ys⟩ ⟨xs ++ .rule r :: ys⟩ start) ∧
    ∀ (xs : List (Statement α)) n v ys start, ¬ Reads ⟨xs ++ ys⟩ start n →
      SameFrom ⟨xs ++ ys⟩ ⟨xs ++ .attr n v :: ys⟩ start := by
  refine ⟨fun g g' start h => h.sameFrom, fun g g' hr ha start => ?_, fun xs s ys h start => ?_,
    fun xs r ys start h => Agrees.sameFrom ⟨fun name hname => ?_, fun n _ => ?_⟩,
    fun xs n v ys start h => Agrees.sameFrom ⟨fun name _ => ?_, fun m hm => ?_⟩⟩
  · refine sameFrom_of_lookup (fun name => ?_) (fun n => ?_)
    · rw [rule?_eq_getLast?, rule?_eq_getLast?, hr]
    · rw [attr?_eq_getLast?, attr?_eq_getLast?, ha]
  · obtain ⟨t, ht, hst⟩ := h
    exact sameFrom_of_lookup (fun name => rule?_insert (hst.rule? ht name))
      (fun n => attr?_insert (hst.attr? ht n))
  · have hne : r.predecessor ≠ name := fun heq => h (heq ▸ hname)
    rw [rule?_insert (.inl (by rw [rule?_rule, if_neg hne]))]
  · rw [attr?_insert (.inl (attr?_rule r n))]
  · rw [rule?_insert (.inl (rule?_attr n v name))]
  · have hne : n ≠ m := fun heq => h (heq ▸ hm)
    rw [attr?_insert (.inl (by rw [attr?_attr, if_neg hne]))]

/-- A garden with a bed of a declared height. -/
def bed : Rule Float32 := ⟨"bed", [.operation (.extrude none (.attr "height" .plain))]⟩

def garden : Rule Float32 := ⟨"garden", [.symbol "bed"]⟩

def shed : Rule Float32 := ⟨"shed", [.symbol "garden"]⟩

def gardenPlan : Grammar Float32 := ⟨[.attr "height" 1, .rule garden, .rule bed]⟩

theorem needs_garden {name : String} (h : gardenPlan.Needs "garden" name) :
    name = "garden" ∨ name = "bed" := by
  induction h with
  | start => exact .inl rfl
  | body _ hr hs hc ih =>
    rcases ih with rfl | rfl
    · obtain rfl : garden = _ := Option.some.inj hr
      obtain rfl := List.mem_singleton.mp hs
      cases hc
      exact .inr rfl
    · obtain rfl : bed = _ := Option.some.inj hr
      obtain rfl := List.mem_singleton.mp hs
      cases hc with
      | branch hpart => cases hpart

theorem reads_garden {n : String} (h : gardenPlan.Reads "garden" n) : n = "height" := by
  obtain ⟨name, r, s, op, hname, hr, hs, hc, hn⟩ := h
  rcases needs_garden hname with rfl | rfl
  · obtain rfl : garden = r := Option.some.inj hr
    obtain rfl := List.mem_singleton.mp hs
    cases hc
  · obtain rfl : bed = r := Option.some.inj hr
    obtain rfl := List.mem_singleton.mp hs
    cases hc with
    | refl => exact List.mem_singleton.mp hn
    | branch hpart => cases hpart

theorem only_needed_declarations_count_garden :
    gardenPlan.SameFrom ⟨[.rule bed, .rule shed, .attr "height" 9, .rule garden, .attr "height" 1]⟩ "garden" ∧
    gardenPlan.SameFrom ⟨[.rule bed, .attr "height" 1, .rule garden]⟩ "garden" ∧
    SameFrom ⟨.rule ⟨"bed", []⟩ :: gardenPlan.statements⟩ gardenPlan "garden" ∧
    gardenPlan.SameFrom ⟨.rule shed :: gardenPlan.statements⟩ "garden" ∧
    gardenPlan.SameFrom ⟨.attr "width" 3 :: gardenPlan.statements⟩ "garden" := by
  obtain ⟨hagrees, horder, hshadowed, hrule, hattr⟩ := only_needed_declarations_count (α := Float32)
  refine ⟨hagrees _ _ "garden" ⟨fun name h => ?_, fun n h => ?_⟩, ?_, ?_, ?_, ?_⟩
  · rcases needs_garden h with rfl | rfl <;> rfl
  · obtain rfl := reads_garden h
    have hvalue : gardenPlan.attr? "height" = some 1 := rfl
    exact hvalue
  · refine horder gardenPlan ⟨[.rule bed, .attr "height" 1, .rule garden]⟩ (fun name => ?_)
      (fun _ => rfl) "garden"
    have hne : garden.predecessor ≠ bed.predecessor := by decide
    have hrules : gardenPlan.rules = [garden, bed] := rfl
    have hrules' : rules ⟨[.rule bed, .attr "height" 1, .rule garden]⟩ = [bed, garden] := rfl
    rw [hrules, hrules', List.filter_cons, List.filter_cons, List.filter_cons, List.filter_cons]
    by_cases hname : garden.predecessor = name
    · simp [← hname, hne.symm]
    · simp [hname]
  · have hmem : .rule bed ∈ gardenPlan.statements := List.mem_of_mem_tail (List.mem_cons_of_mem _ List.mem_cons_self)
    exact hshadowed [] (.rule ⟨"bed", []⟩) gardenPlan.statements ⟨.rule bed, hmem, .rule rfl⟩ "garden"
  · refine hrule [] shed gardenPlan.statements "garden" fun h => ?_
    rcases needs_garden h with heq | heq <;> simp [shed] at heq
  · refine hattr [] "width" 3 gardenPlan.statements "garden" fun h => ?_
    have heq := reads_garden h
    simp at heq

end Grammar
end ShapeGrammar
