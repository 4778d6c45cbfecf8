import ShapeGrammar.Document.Decode

/-! How documents are read, record by record. A decoder recurses on parts that carry their size; here
each one is stated as an equation over the plain parts of a record, a member of its object or an element
in its place of its array. -/
namespace ShapeGrammar
variable {α : Type}

namespace Json

def member (j : Json) (name : String) : Option Json :=
  match j with
  | object members => members.lookup name
  | _ => none

def part (names : List String) (j : Json) (name : String) : Option Json :=
  match j with
  | object members => members.lookup name
  | array js => if js.length ≤ names.length then js[names.idxOf name]? else none
  | _ => none

@[simp] theorem member_object (n : String) (k : Json) (ms : List (String × Json)) (name : String) :
    (object ((n, k) :: ms)).member name = if name = n then some k else (object ms).member name := by
  rw [member, List.lookup_cons]
  by_cases h : name = n
  · simp [h]
  · rw [if_neg h, show (name == n) = false by simpa using h]
    rfl

@[simp] theorem part_object (names : List String) (ms : List (String × Json)) (name : String) :
    (object ms).part names name = (object ms).member name := rfl

/-- A mark, not set if it is left out. -/
def flag : Option Json → Option Bool
  | none => some false
  | some k => k.bool?

def optional {τ : Type} (f : Json → Option τ) : Option Json → Option (Option τ)
  | none | some .null => some none
  | some k => (f k).map some

theorem get?_object (members : List (String × Json)) (name : String) :
    (object members).get? name = get?.find name members := rfl

theorem map_val_get? (j : Json) (name : String) : (j.get? name).map (·.val) = j.member name := by
  cases j with
  | object members =>
    induction members with
    | nil => rfl
    | cons m ms ih =>
      obtain ⟨n, k⟩ := m
      rw [get?_object, get?.find, member_object, ← ih]
      by_cases h : name = n
      · simp [h]
      · rw [if_neg (by simpa using Ne.symm h), if_neg h, Option.map_map]
        rfl
  | null | bool b | number n | string s | array js => rfl

theorem member?_eq {τ : Type} (j : Json) (name : String) (f : Json → Option τ) :
    j.member? name f = (j.member name).bind f := by
  rw [member?, ← map_val_get?, Option.bind_map]
  rfl

theorem option?_eq {τ : Type} (j : Json) (name : String) (f : Json → Option τ) :
    j.option? name f = optional f (j.member name) := by
  rw [option?, ← map_val_get?]
  rcases j.get? name with _ | ⟨k, h⟩
  · rfl
  · cases k <;> rfl

theorem mark?_eq {j : Json} (p : Option j.Part) : mark? p = flag (p.map (·.val)) := by
  cases p <;> rfl

theorem elements?_array (js : List Json) :
    ∃ ks, (array js).elements? = some ks ∧ ks.map (·.val) = js := by
  refine ⟨_, rfl, ?_⟩
  rw [List.map_map]
  exact List.attach_map_subtype_val js

theorem bind_elements? {τ : Type} (j : Json) (f : Json → Option τ) :
    (j.elements?.bind fun ks => ks.mapM fun k => f k.val) = j.list? f := by
  cases j with
  | array js =>
    obtain ⟨ks, hks, hjs⟩ := elements?_array js
    have hmap : js.mapM f = ks.mapM fun k => f k.val := by
      rw [show js.mapM f = (ks.map (·.val)).mapM f by rw [hjs], List.mapM_map]
      rfl
    rw [hks, Option.bind_some, list?, array?, Option.bind_some, hmap]
  | null | bool b | number n | string s | object ms => rfl

/-- A value is no record and has no parts, or its parts are its parts by name. -/
theorem record?_cases (j : Json) (names : List String) :
    (j.record? names = none ∧ ∀ n, j.part names n = none) ∨
      ∃ part, j.record? names = some part ∧ ∀ n, j.part names n = (part n).map (·.val) := by
  cases j with
  | object members => exact .inr ⟨_, rfl, fun n => (map_val_get? (object members) n).symm⟩
  | array js =>
    by_cases h : js.length ≤ names.length
    · obtain ⟨ks, hks, hjs⟩ := elements?_array js
      refine .inr ⟨_, by rw [record?, if_pos h, hks]; rfl, fun n => ?_⟩
      rw [part, if_pos h, ← List.getElem?_map, hjs]
    · exact .inl ⟨by rw [record?, if_neg h], fun n => by rw [part, if_neg h]⟩
  | null | bool b | number n | string s => exact .inl ⟨rfl, fun _ => rfl⟩

end Json

variable (leaf : Json → Option α)

/-- A record is read like the full object of its parts. -/
theorem Expr.ofJson?_eq (j : Json) : Expr.ofJson? leaf j = (do
    let content ← j.part ["kind", "negated", "parenthesized"] "kind"
    let negated ← Json.flag (j.part ["kind", "negated", "parenthesized"] "negated")
    let parenthesized ← Json.flag (j.part ["kind", "negated", "parenthesized"] "parenthesized")
    Expr.ofJson? leaf (Marks.wrapJson ⟨negated, parenthesized⟩ content)) := by
  rw [Expr.ofJson?]
  rcases j.record?_cases ["kind", "negated", "parenthesized"] with ⟨h, hn⟩ | ⟨part, h, hn⟩
  · simp [h, hn]
  · simp only [h, hn, Json.mark?_eq, Option.bind_eq_bind, Option.bind_some]
    cases part "kind" with
    | none => rfl
    | some k =>
      simp only [Option.bind_some, Option.map_some]
      congr 1
      funext negated
      congr 1
      funext parenthesized
      rw [Expr.ofJson?]
      rfl

section
variable (m : Marks) (k : Json)

theorem Marks.exists_record? (names : List String) : ∃ part, (m.wrapJson k).record? names = some part ∧
    (∃ h, part "kind" = some ⟨k, h⟩) ∧ Json.mark? (part "negated") = some m.negated ∧
      Json.mark? (part "parenthesized") = some m.parenthesized :=
  ⟨_, rfl, ⟨_, rfl⟩, rfl, rfl⟩

theorem Expr.ofJson?_constant : Expr.ofJson? leaf (m.wrapJson (.tagged "Constant" k)) = do
    let v ← leaf k
    return .constant v m := by
  obtain ⟨part, hpart, ⟨_, hkind⟩, hn, hp⟩ := m.exists_record? (.tagged "Constant" k) _
  rw [Expr.ofJson?, hpart]
  simp only [Option.bind_eq_bind, Option.bind_some, hkind, hn, hp, Json.variant?_tagged]

theorem Expr.ofJson?_attr : Expr.ofJson? leaf (m.wrapJson (.tagged "Attribute" k)) = do
    let n ← k.string?
    return .attr n m := by
  obtain ⟨part, hpart, ⟨_, hkind⟩, hn, hp⟩ := m.exists_record? (.tagged "Attribute" k) _
  rw [Expr.ofJson?, hpart]
  simp only [Option.bind_eq_bind, Option.bind_some, hkind, hn, hp, Json.variant?_tagged]

theorem Expr.ofJson?_scope : Expr.ofJson? leaf (m.wrapJson (.tagged "Shape" k)) = do
    let a ← k.scopeAttribute?
    return .scope a m := by
  obtain ⟨part, hpart, ⟨_, hkind⟩, hn, hp⟩ := m.exists_record? (.tagged "Shape" k) _
  rw [Expr.ofJson?, hpart]
  simp only [Option.bind_eq_bind, Option.bind_some, hkind, hn, hp, Json.variant?_tagged]

theorem Expr.ofJson?_binary : Expr.ofJson? leaf (m.wrapJson (.tagged "Binary" k)) = do
    let op ← (k.member "op").bind Json.operator?
    let l ← (k.member "left").bind (Expr.ofJson? leaf)
    let r ← (k.member "right").bind (Expr.ofJson? leaf)
    return .binary op l r m := by
  obtain ⟨part, hpart, ⟨_, hkind⟩, hn, hp⟩ := m.exists_record? (.tagged "Binary" k) _
  rw [Expr.ofJson?, hpart]
  simp only [Option.bind_eq_bind, Option.bind_some, hkind, hn, hp, Json.variant?_tagged, Json.member?_eq]
  rw [← Json.map_val_get? k "left", ← Json.map_val_get? k "right"]
  cases k.get? "left" <;> cases k.get? "right" <;> simp

theorem Successor.ofJson?_symbol :
    Successor.ofJson? leaf (.tagged "Symbol" k) = k.string?.map .symbol := by
  rw [Successor.ofJson?]
  rfl

theorem Successor.ofJson?_operation :
    Successor.ofJson? leaf (.tagged "Operation" k) = (Operation.ofJson? leaf k).map .operation := by
  rw [Successor.ofJson?]
  rfl

theorem Operation.ofJson?_translate :
    Operation.ofJson? leaf (.tagged "Translate" k) = (Vec3.ofJson? leaf k).map .translate := by
  rw [Operation.ofJson?]
  rfl

theorem Operation.ofJson?_rotate :
    Operation.ofJson? leaf (.tagged "Rotate" k) = (Vec3.ofJson? leaf k).map .rotate := by
  rw [Operation.ofJson?]
  rfl

theorem Operation.ofJson?_scale :
    Operation.ofJson? leaf (.tagged "Scale" k) = (Vec3.ofJson? leaf k).map .scale := by
  rw [Operation.ofJson?]
  rfl

theorem Operation.ofJson?_extrude : Operation.ofJson? leaf (.tagged "Extrude" k) = do
    let axis ← Json.optional Json.axis? (k.member "axis")
    let distance ← (k.member "distance").bind (Expr.ofJson? leaf)
    return .extrude axis distance := by
  rw [Operation.ofJson?]
  simp [Json.member?_eq, Json.option?_eq]

theorem Operation.ofJson?_componentSplit : Operation.ofJson? leaf (.tagged "ComponentSplit" k) = do
    let component ← (k.member "selector").bind Json.component?
    let selections ← (k.member "args").bind (Json.list? (Selection.ofJson? leaf))
    return .componentSplit component selections := by
  rw [Operation.ofJson?]
  simp [Json.member?_eq, ← Json.map_val_get?, ← Json.bind_elements?, Option.bind_assoc]

theorem Operation.ofJson?_split : Operation.ofJson? leaf (.tagged "Split" k) = do
    let axis ← (k.member "axis").bind Json.axis?
    let adjustment ← Json.optional Json.adjustment? (k.member "adjust")
    let p ← (k.member "pattern").bind (Pattern.ofJson? leaf)
    return .split axis adjustment p := by
  rw [Operation.ofJson?]
  simp [Json.member?_eq, Json.option?_eq, ← Json.map_val_get?, Option.bind_assoc]

theorem Selection.ofJson?_eq : Selection.ofJson? leaf k = do
    let selector ← (k.part ["selector", "successor"] "selector").bind Json.faceSelector?
    let s ← (k.part ["selector", "successor"] "successor").bind (Successor.ofJson? leaf)
    return ⟨selector, s⟩ := by
  rw [Selection.ofJson?]
  rcases k.record?_cases ["selector", "successor"] with ⟨h, hn⟩ | ⟨part, h, hn⟩
  · simp [h, hn]
  · cases hs : part "successor" <;> simp [h, hn, hs, Option.bind_assoc]

theorem Pattern.ofJson?_eq : Pattern.ofJson? leaf k = do
    let items ← (k.part ["items", "has_switch"] "items").bind (Json.list? (Item.ofJson? leaf))
    let repeats ← Json.flag (k.part ["items", "has_switch"] "has_switch")
    return ⟨items, repeats⟩ := by
  rw [Pattern.ofJson?]
  rcases k.record?_cases ["items", "has_switch"] with ⟨h, hn⟩ | ⟨part, h, hn⟩
  · simp [h, hn]
  · simp [h, hn, Json.mark?_eq, ← Json.bind_elements?, Option.bind_assoc]

theorem Item.ofJson?_step : Item.ofJson? leaf (.tagged "Step" k) = do
    let size ← (k.part ["size", "successor"] "size").bind (Size.ofJson? leaf)
    let s ← (k.part ["size", "successor"] "successor").bind (Successor.ofJson? leaf)
    return .step size s := by
  rw [Item.ofJson?]
  rcases k.record?_cases ["size", "successor"] with ⟨h, hn⟩ | ⟨part, h, hn⟩
  · simp [h, hn]
  · cases hs : part "successor" <;> simp [h, hn, hs, Option.bind_assoc]

theorem Item.ofJson?_nested :
    Item.ofJson? leaf (.tagged "Pattern" k) = (Pattern.ofJson? leaf k).map Pattern.toItem := by
  rw [Item.ofJson?]
  rfl

theorem Rule.ofJson?_eq : Rule.ofJson? leaf k = do
    let predecessor ← (k.part ["predecessor", "successors"] "predecessor").bind Json.string?
    let successors ←
      (k.part ["predecessor", "successors"] "successors").bind (Json.list? (Successor.ofJson? leaf))
    return ⟨predecessor, successors⟩ := by
  rw [Rule.ofJson?]
  rcases k.record?_cases ["predecessor", "successors"] with ⟨h, hn⟩ | ⟨part, h, hn⟩
  · simp [h, hn]
  · simp [h, hn, Option.bind_assoc]

theorem Json.attr?_eq : Json.attr? leaf k = do
    let name ← (k.part ["name", "value"] "name").bind Json.string?
    let value ← (k.part ["name", "value"] "value").bind leaf
    return (name, value) := by
  rw [Json.attr?]
  rcases k.record?_cases ["name", "value"] with ⟨h, hn⟩ | ⟨part, h, hn⟩
  · simp [h, hn]
  · simp [h, hn, Option.bind_assoc]

theorem Grammar.ofJson?_eq : Grammar.ofJson? leaf k = do
    let statements ← (k.part ["statements"] "statements").bind (Json.list? (Statement.ofJson? leaf))
    return ⟨statements⟩ := by
  rw [Grammar.ofJson?]
  rcases k.record?_cases ["statements"] with ⟨h, hn⟩ | ⟨part, h, hn⟩
  · simp [h, hn]
  · simp [h, hn, Option.bind_assoc]

theorem Scope.ofJson?_eq : Scope.ofJson? leaf k = do
    let transform ← ((k.part ["transform", "size"] "transform").bind (Json.list? leaf)).bind Mat4.ofList?
    let size ← ((k.part ["transform", "size"] "size").bind (Json.list? leaf)).bind Vec3.ofList?
    return ⟨transform, size⟩ := by
  rw [Scope.ofJson?]
  rcases k.record?_cases ["transform", "size"] with ⟨h, hn⟩ | ⟨part, h, hn⟩
  · simp [h, hn]
  · simp [h, hn, Option.bind_assoc]

theorem Axiom.ofJson?_eq : Axiom.ofJson? leaf k = do
    let symbol ← (k.part ["symbol", "shape"] "symbol").bind Json.string?
    let shape ← (k.part ["symbol", "shape"] "shape").bind (Shape.ofJson? leaf)
    return ⟨symbol, shape⟩ := by
  rw [Axiom.ofJson?]
  rcases k.record?_cases ["symbol", "shape"] with ⟨h, hn⟩ | ⟨part, h, hn⟩
  · simp [h, hn]
  · simp [h, hn, Option.bind_assoc]

theorem Diagnostic.ofJson?_eq : Diagnostic.ofJson? k = do
    let message ← (k.part ["message", "offset", "line", "column"] "message").bind Json.string?
    let offset ← (k.part ["message", "offset", "line", "column"] "offset").bind Json.nat?
    let line ← (k.part ["message", "offset", "line", "column"] "line").bind Json.nat?
    let column ← (k.part ["message", "offset", "line", "column"] "column").bind Json.nat?
    return ⟨message, offset, line, column⟩ := by
  rw [Diagnostic.ofJson?]
  rcases k.record?_cases ["message", "offset", "line", "column"] with ⟨h, hn⟩ | ⟨part, h, hn⟩
  · simp [h, hn]
  · simp [h, hn, Option.bind_assoc]

theorem Vec3.ofJson?_eq : Vec3.ofJson? leaf k = do
    let x ← (k.member "x").bind (Expr.ofJson? leaf)
    let y ← (k.member "y").bind (Expr.ofJson? leaf)
    let z ← (k.member "z").bind (Expr.ofJson? leaf)
    return ⟨x, y, z⟩ := by
  rw [Vec3.ofJson?, Json.member?_eq, Json.member?_eq, Json.member?_eq]

end

end ShapeGrammar
