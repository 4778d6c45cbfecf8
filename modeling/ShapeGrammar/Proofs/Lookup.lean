import ShapeGrammar.Grammar

/-! What names stand for. Of several statements for one name the last counts, so what is declared
behind comes first, and a name stands for nothing just if no statement declares it. If values and
successors are put differently throughout, then so is what every name stands for. -/
namespace ShapeGrammar
variable {α β : Type}

namespace Statement

def isRuleFor (name : String) : Statement α → Bool
  | attr _ _ => false
  | rule r => r.predecessor == name

end Statement

def Rule.translate (f : Successor α → Successor β) (r : Rule α) : Rule β :=
  ⟨r.predecessor, r.successors.map f⟩

def Statement.translate (f : Successor α → Successor β) (v : α → β) : Statement α → Statement β
  | attr n x => attr n (v x)
  | rule r => rule (r.translate f)

namespace Grammar

def translate (f : Successor α → Successor β) (v : α → β) (g : Grammar α) : Grammar β :=
  ⟨g.statements.map (Statement.translate f v)⟩

variable {g : Grammar α} {name : String}

theorem rule?_translate (f : Successor α → Successor β) (v : α → β) (g : Grammar α) (name : String) :
    (g.translate f v).rule? name = (g.rule? name).map (Rule.translate f) := by
  have hrules : (g.translate f v).rules = g.rules.map (Rule.translate f) := by
    rw [rules, rules, translate, List.filterMap_map, List.map_filterMap]
    congr 1
    funext s
    cases s <;> rfl
  rw [rule?, rule?, hrules, ← List.map_reverse, List.find?_map]
  rfl

theorem attr?_translate (f : Successor α → Successor β) (v : α → β) (g : Grammar α) (name : String) :
    (g.translate f v).attr? name = (g.attr? name).map v := by
  have hattrs : (g.translate f v).attrs = g.attrs.map fun p => (p.1, v p.2) := by
    rw [attrs, attrs, translate, List.filterMap_map, List.map_filterMap]
    congr 1
    funext s
    cases s <;> rfl
  rw [attr?, attr?, hattrs, ← List.map_reverse, List.find?_map, Option.map_map, Option.map_map]
  rfl

theorem rule?_append (xs ys : List (Statement α)) (name : String) :
    rule? ⟨xs ++ ys⟩ name = (rule? ⟨ys⟩ name).or (rule? ⟨xs⟩ name) := by
  simp [rule?, rules, List.filterMap_append, List.find?_append]

theorem attr?_append (xs ys : List (Statement α)) (name : String) :
    attr? ⟨xs ++ ys⟩ name = (attr? ⟨ys⟩ name).or (attr? ⟨xs⟩ name) := by
  simp [attr?, attrs, List.filterMap_append, List.find?_append, Option.map_or]

theorem rule?_cons (s : Statement α) (ss : List (Statement α)) (name : String) :
    rule? ⟨s :: ss⟩ name = (rule? ⟨ss⟩ name).or (rule? ⟨[s]⟩ name) :=
  rule?_append [s] ss name

theorem attr?_cons (s : Statement α) (ss : List (Statement α)) (name : String) :
    attr? ⟨s :: ss⟩ name = (attr? ⟨ss⟩ name).or (attr? ⟨[s]⟩ name) :=
  attr?_append [s] ss name

@[simp] theorem rule?_attr (n : String) (v : α) (name : String) : rule? ⟨[.attr n v]⟩ name = none := rfl

@[simp] theorem attr?_rule (r : Rule α) (name : String) : attr? ⟨[.rule r]⟩ name = none := rfl

theorem rule?_rule (r : Rule α) (name : String) :
    rule? ⟨[.rule r]⟩ name = if r.predecessor = name then some r else none := by
  by_cases h : r.predecessor = name <;> simp [rule?, rules, Statement.rule?, h]

theorem attr?_attr (n : String) (v : α) (name : String) :
    attr? ⟨[.attr n v]⟩ name = if n = name then some v else none := by
  by_cases h : n = name <;> simp [attr?, attrs, Statement.attr?, h]

theorem mem_rules_of_rule? {r : Rule α} (h : g.rule? name = some r) : r ∈ g.rules :=
  List.mem_reverse.mp (List.mem_of_find?_eq_some h)

theorem predecessor_of_rule? {r : Rule α} (h : g.rule? name = some r) : r.predecessor = name := by
  simpa using List.find?_some h

theorem isRuleFor_eq (s : Statement α) (name : String) :
    s.isRuleFor name = (rule? ⟨[s]⟩ name).isSome := by
  cases s with
  | attr n v => rfl
  | rule r => by_cases h : r.predecessor = name <;> simp [Statement.isRuleFor, rule?_rule, h]

theorem rule?_of_isRuleFor {s : Statement α} {other : String} (hs : s.isRuleFor name = true)
    (h : other ≠ name) : rule? ⟨[s]⟩ other = none := by
  cases s with
  | attr n v => rfl
  | rule r =>
    have hr : r.predecessor = name := by simpa [Statement.isRuleFor] using hs
    rw [rule?_rule, if_neg (hr ▸ Ne.symm h)]

theorem any_isRuleFor (ss : List (Statement α)) (name : String) :
    ss.any (·.isRuleFor name) = (rule? ⟨ss⟩ name).isSome := by
  induction ss with
  | nil => rfl
  | cons s ss ih => rw [List.any_cons, ih, rule?_cons, Option.isSome_or, isRuleFor_eq, Bool.or_comm]

theorem attr?_eq_none_iff : g.attr? name = none ↔ ∀ v, .attr name v ∉ g.statements := by
  obtain ⟨ss⟩ := g
  induction ss with
  | nil => simp [attr?, attrs]
  | cons s ss ih =>
    rw [attr?_cons, Option.or_eq_none_iff, ih]
    cases s with
    | rule r => simp
    | attr m v =>
      by_cases hm : m = name
      · simp [attr?_attr, hm, forall_and]
      · simp [attr?_attr, hm, Ne.symm hm]

theorem rule?_ne_none_of_mem {ss : List (Statement α)} {r : Rule α} (h : .rule r ∈ ss) :
    rule? ⟨ss⟩ r.predecessor ≠ none := by
  have hany : ss.any (·.isRuleFor r.predecessor) = true :=
    List.any_eq_true.mpr ⟨_, h, by simp [Statement.isRuleFor]⟩
  rw [any_isRuleFor] at hany
  exact Option.isSome_iff_ne_none.mp hany

theorem attr?_ne_none_of_mem {ss : List (Statement α)} {n : String} {v : α} (h : .attr n v ∈ ss) :
    attr? ⟨ss⟩ n ≠ none :=
  fun hnone => attr?_eq_none_iff.mp hnone v h

theorem rule?_eq_getLast? : g.rule? name = (g.rules.filter (·.predecessor == name)).getLast? := by
  rw [rule?, ← List.head?_filter, List.filter_reverse, List.head?_reverse]

theorem attr?_eq_getLast? : g.attr? name = ((g.attrs.filter (·.1 == name)).getLast?).map (·.2) := by
  rw [attr?, ← List.head?_filter, List.filter_reverse, List.head?_reverse]

section Insert
variable {xs ys : List (Statement α)} {s : Statement α}

/-- A statement makes no difference to a name that it does not declare or that is declared behind. -/
theorem rule?_insert (h : rule? ⟨[s]⟩ name = none ∨ rule? ⟨ys⟩ name ≠ none) :
    rule? ⟨xs ++ s :: ys⟩ name = rule? ⟨xs ++ ys⟩ name := by
  rw [rule?_append, rule?_append, rule?_cons]
  rcases h with h | h
  · rw [h, Option.or_none]
  · obtain ⟨r, hr⟩ := Option.ne_none_iff_exists'.mp h
    rw [hr]
    rfl

theorem attr?_insert (h : attr? ⟨[s]⟩ name = none ∨ attr? ⟨ys⟩ name ≠ none) :
    attr? ⟨xs ++ s :: ys⟩ name = attr? ⟨xs ++ ys⟩ name := by
  rw [attr?_append, attr?_append, attr?_cons]
  rcases h with h | h
  · rw [h, Option.or_none]
  · obtain ⟨v, hv⟩ := Option.ne_none_iff_exists'.mp h
    rw [hv]
    rfl

end Insert

end Grammar
end ShapeGrammar
