import ShapeGrammar.Proofs.Numbers
import ShapeGrammar.Proofs.Parts

/-! What is written is read back. How a number is written is open: `leaf` and `leaf?` write and read
one, and all that counts is that they agree on the numbers that the written value contains. -/
namespace ShapeGrammar
variable {α : Type} {leaf : α → Json} {leaf? : Json → Option α}

namespace Json
variable {τ : Type}

theorem list?_cons {f? : Json → Option τ} {j : Json} {js : List Json} {x : τ} {xs : List τ}
    (h : f? j = some x) (hs : (array js).list? f? = some xs) :
    (array (j :: js)).list? f? = some (x :: xs) := by
  rw [list?, array?, Option.bind_some] at hs ⊢
  rw [List.mapM_cons, h, hs]
  rfl

theorem list?_map {f : τ → Json} {f? : Json → Option τ} {xs : List τ}
    (h : ∀ x ∈ xs, f? (f x) = some x) : (array (xs.map f)).list? f? = some xs := by
  induction xs with
  | nil => rfl
  | cons x xs ih =>
    exact list?_cons (h x List.mem_cons_self) (ih fun y hy => h y (List.mem_cons_of_mem _ hy))

theorem nat?_nat {n : Nat} (h : n < Nat.pow 2 64) : (nat n).nat? = some n := by
  simp [nat, nat?, number?, Number.ofNat, Number.nat?, h]

theorem axis?_name (a : Axis) : axis? (.string a.name) = some a := by
  cases a <;> decide +kernel

theorem component?_name (c : Component) : component? (.string c.name) = some c := by
  cases c <;> decide +kernel

theorem faceSelector?_name (f : FaceSelector) : faceSelector? (.string f.name) = some f := by
  cases f <;> decide +kernel

theorem adjustment?_name (a : Adjustment) : adjustment? (.string a.name) = some a := by
  cases a <;> decide +kernel

theorem operator?_tag (op : Operator) : operator? (.string op.tag) = some op := by
  cases op <;> decide +kernel

theorem scopeAttribute?_tag (a : ScopeAttribute) : scopeAttribute? (.string a.tag) = some a := by
  cases a with | _ a => cases a <;> decide +kernel

theorem optional_ofOption {f? : Json → Option τ} {f : τ → String}
    (h : ∀ v, f? (.string (f v)) = some v) (o : Option τ) :
    optional f? (some (.ofOption (.string <| f ·) o)) = some o := by
  cases o with
  | none => rfl
  | some v => exact congrArg (Option.map some) (h v)

end Json

theorem Expr.ofJson?_toJson {e : Expr α} (h : ∀ v ∈ e.numbers, leaf? (leaf v) = some v) :
    Expr.ofJson? leaf? (e.toJson leaf) = some e := by
  induction e with
  | constant v m =>
    rw [toJson, ofJson?_constant, h v (by simp [numbers])]
    rfl
  | attr n m =>
    rw [toJson, ofJson?_attr]
    rfl
  | scope a m =>
    rw [toJson, ofJson?_scope, Json.scopeAttribute?_tag]
    rfl
  | binary op l r m ihl ihr =>
    rw [numbers, List.forall_mem_append] at h
    simp [toJson, ofJson?_binary, ihl h.1, ihr h.2, Json.operator?_tag]

theorem Vec3.ofJson?_toJson {v : Vec3 (Expr α)} (h : ∀ c ∈ v.numbers, leaf? (leaf c) = some c) :
    Vec3.ofJson? leaf? (v.toJson leaf) = some v := by
  rw [numbers, List.forall_mem_append, List.forall_mem_append] at h
  obtain ⟨⟨hx, hy⟩, hz⟩ := h
  simp [toJson, ofJson?_eq, Expr.ofJson?_toJson hx, Expr.ofJson?_toJson hy, Expr.ofJson?_toJson hz]

theorem Size.ofJson?_toJson {z : Size α} (h : ∀ v ∈ z.numbers, leaf? (leaf v) = some v) :
    Size.ofJson? leaf? (z.toJson leaf) = some z := by
  cases z with
  | absolute e | relative e => simp [toJson, ofJson?, Expr.ofJson?_toJson (e := e) h]

mutual

theorem Successor.ofJson?_toJson : ∀ {s : Successor α}, (∀ v ∈ s.numbers, leaf? (leaf v) = some v) →
    Successor.ofJson? leaf? (s.toJson leaf) = some s
  | .symbol name, _ => by
    rw [Successor.toJson, Successor.ofJson?_symbol]
    rfl
  | .operation op, h => by
    rw [Successor.toJson, Successor.ofJson?_operation, Operation.ofJson?_toJson h]
    rfl

theorem Operation.ofJson?_toJson : ∀ {op : Operation α (Successor α)},
    (∀ v ∈ op.numbers, leaf? (leaf v) = some v) → Operation.ofJson? leaf? (op.toJson leaf) = some op
  | .translate v, h => by
    rw [Operation.toJson, Operation.ofJson?_translate, Vec3.ofJson?_toJson h]
    rfl
  | .rotate v, h => by
    rw [Operation.toJson, Operation.ofJson?_rotate, Vec3.ofJson?_toJson h]
    rfl
  | .scale v, h => by
    rw [Operation.toJson, Operation.ofJson?_scale, Vec3.ofJson?_toJson h]
    rfl
  | .extrude axis e, h => by
    simp [Operation.toJson, Operation.ofJson?_extrude, Json.optional_ofOption Json.axis?_name,
      Expr.ofJson?_toJson (e := e) h]
  | .componentSplit c selections, h => by
    simp [Operation.toJson, Operation.ofJson?_componentSplit, Json.component?_name,
      Selection.list?_toJsons h]
  | .split axis adjustment p, h => by
    simp [Operation.toJson, Operation.ofJson?_split, Json.axis?_name,
      Json.optional_ofOption Json.adjustment?_name, Pattern.ofJson?_toJson h]

theorem Selection.list?_toJsons : ∀ {ks : List (Selection (Successor α))},
    (∀ v ∈ Selection.allNumbers ks, leaf? (leaf v) = some v) →
      (Json.array (Selection.toJsons leaf ks)).list? (Selection.ofJson? leaf?) = some ks
  | [], _ => rfl
  | k :: ks, h => by
    rw [Selection.allNumbers, List.forall_mem_append] at h
    exact Json.list?_cons (Selection.ofJson?_toJson h.1) (Selection.list?_toJsons h.2)

theorem Selection.ofJson?_toJson : ∀ {k : Selection (Successor α)},
    (∀ v ∈ k.numbers, leaf? (leaf v) = some v) → Selection.ofJson? leaf? (k.toJson leaf) = some k
  | ⟨selector, s⟩, h => by
    simp [Selection.toJson, Selection.ofJson?_eq, Json.faceSelector?_name,
      Successor.ofJson?_toJson h]

theorem Pattern.ofJson?_toJson : ∀ {p : Pattern α (Successor α)},
    (∀ v ∈ p.numbers, leaf? (leaf v) = some v) → Pattern.ofJson? leaf? (p.toJson leaf) = some p
  | ⟨items, repeats⟩, h => by
    simp [Pattern.toJson, Pattern.ofJson?_eq, Json.flag, Json.bool?, Item.list?_toJsons h]

theorem Item.list?_toJsons : ∀ {is : List (Item α (Successor α))},
    (∀ v ∈ Item.allNumbers is, leaf? (leaf v) = some v) →
      (Json.array (Item.toJsons leaf is)).list? (Item.ofJson? leaf?) = some is
  | [], _ => rfl
  | i :: is, h => by
    rw [Item.allNumbers, List.forall_mem_append] at h
    exact Json.list?_cons (Item.ofJson?_toJson h.1) (Item.list?_toJsons h.2)

theorem Item.ofJson?_toJson : ∀ {i : Item α (Successor α)},
    (∀ v ∈ i.numbers, leaf? (leaf v) = some v) → Item.ofJson? leaf? (i.toJson leaf) = some i
  | .step size s, h => by
    rw [Item.numbers, List.forall_mem_append] at h
    simp [Item.toJson, Item.ofJson?_step, Size.ofJson?_toJson h.1, Successor.ofJson?_toJson h.2]
  | .nested items repeats, h => by
    simp [Item.toJson, Item.ofJson?_nested, Pattern.ofJson?_eq, Json.flag, Json.bool?, Pattern.toItem,
      Item.list?_toJsons h]

end

theorem Rule.ofJson?_toJson {r : Rule α}
    (h : ∀ v ∈ r.successors.flatMap Successor.numbers, leaf? (leaf v) = some v) :
    Rule.ofJson? leaf? (r.toJson leaf) = some r := by
  rw [List.forall_mem_flatMap] at h
  simp [toJson, ofJson?_eq, Json.string?, Json.list?_map fun s hs => Successor.ofJson?_toJson (h s hs)]

theorem Statement.ofJson?_toJson {s : Statement α} (h : ∀ v ∈ s.numbers, leaf? (leaf v) = some v) :
    Statement.ofJson? leaf? (s.toJson leaf) = some s := by
  cases s with
  | attr name value =>
    simp [toJson, ofJson?, Json.attr?_eq, Json.ofAttr, Json.string?, h value (by simp [numbers])]
  | rule r => simp [toJson, ofJson?, Rule.ofJson?_toJson (r := r) h]

theorem Grammar.ofJson?_toJson {g : Grammar α} (h : ∀ v ∈ g.numbers, leaf? (leaf v) = some v) :
    Grammar.ofJson? leaf? (g.toJson leaf) = some g := by
  rw [numbers, List.forall_mem_flatMap] at h
  simp [toJson, ofJson?_eq, Json.list?_map fun s hs => Statement.ofJson?_toJson (h s hs)]

theorem Scope.ofJson?_toJson {s : Scope α} (h : ∀ v ∈ s.numbers, leaf? (leaf v) = some v) :
    Scope.ofJson? leaf? (s.toJson leaf) = some s := by
  rw [numbers, List.forall_mem_append] at h
  simp [toJson, ofJson?_eq, Json.list?_map h.1, Json.list?_map h.2]

theorem Shape.ofJson?_toJson {h : Shape α} (hn : ∀ v ∈ h.numbers, leaf? (leaf v) = some v) :
    Shape.ofJson? leaf? (h.toJson leaf) = some h := by
  have hk : ShapeKind.values.find? (·.name == h.kind.name) = some h.kind := by
    cases h.kind <;> decide +kernel
  simp [toJson, ofJson?, hk, Scope.ofJson?_toJson (s := h.scope) hn]

theorem Axiom.ofJson?_toJson {a : Axiom α} (h : ∀ v ∈ a.numbers, leaf? (leaf v) = some v) :
    Axiom.ofJson? leaf? (a.toJson leaf) = some a := by
  simp [toJson, ofJson?_eq, Json.string?, Shape.ofJson?_toJson (h := a.shape) h]

theorem Diagnostic.ofJson?_toJson {d : Diagnostic} (ho : d.offset < Nat.pow 2 64)
    (hl : d.line < Nat.pow 2 64) (hc : d.column < Nat.pow 2 64) : Diagnostic.ofJson? d.toJson = some d := by
  simp [toJson, ofJson?_eq, Json.string?, Json.nat?_nat ho, Json.nat?_nat hl, Json.nat?_nat hc]

end ShapeGrammar
