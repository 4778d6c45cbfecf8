import ShapeGrammar.Grammar
import ShapeGrammar.Proofs.Branches

/-! Substitution. The parameters of an operation may be put differently, as may the marks that no layout
heeds and what is to become of the branches. As long as every expression keeps its value, be it in another
environment, the operation makes the same of a shape. -/
namespace ShapeGrammar
variable {α β σ τ : Type}

/-- What is put in the place of expressions and marks; every extrusion stays along the same axis. -/
structure Paraphrase (α β : Type) where
  expr : Expr α → Expr β
  axis : Option Axis → Option Axis
  adjustment : Option Adjustment → Option Adjustment
  repeats : Bool → Bool
  getD_axis : ∀ a, (axis a).getD .z = a.getD .z

namespace Paraphrase
variable (f : Expr α → Expr β)

def ofExpr : Paraphrase α β := ⟨f, id, id, id, fun _ => rfl⟩

@[simp] theorem ofExpr_expr : (ofExpr f).expr = f := rfl
@[simp] theorem ofExpr_axis (a : Option Axis) : (ofExpr f).axis a = a := rfl
@[simp] theorem ofExpr_adjustment (a : Option Adjustment) : (ofExpr f).adjustment a = a := rfl
@[simp] theorem ofExpr_repeats (b : Bool) : (ofExpr f).repeats b = b := rfl

end Paraphrase

def Size.map (f : Expr α → Expr β) : Size α → Size β
  | absolute e => absolute (f e)
  | relative e => relative (f e)

def Selection.map (g : σ → τ) (k : Selection σ) : Selection τ := ⟨k.selector, g k.successor⟩

mutual

def Item.map (p : Paraphrase α β) (g : σ → τ) : Item α σ → Item β τ
  | .step size s => .step (size.map p.expr) (g s)
  | .nested items repeats => .nested (Item.maps p g items) (p.repeats repeats)

def Item.maps (p : Paraphrase α β) (g : σ → τ) : List (Item α σ) → List (Item β τ)
  | [] => []
  | i :: is => i.map p g :: Item.maps p g is

end

theorem Item.maps_eq_map (p : Paraphrase α β) (g : σ → τ) (items : List (Item α σ)) :
    Item.maps p g items = items.map (Item.map p g) := by
  induction items with
  | nil => rfl
  | cons i is ih => rw [maps, ih, List.map_cons]

def Pattern.map (p : Paraphrase α β) (g : σ → τ) (q : Pattern α σ) : Pattern β τ :=
  ⟨Item.maps p g q.items, p.repeats q.repeats⟩

/-- The operation paraphrased, with `g` of every successor. -/
def Operation.map (p : Paraphrase α β) (g : σ → τ) : Operation α σ → Operation β τ
  | translate v => translate (v.map p.expr)
  | rotate v => rotate (v.map p.expr)
  | scale v => scale (v.map p.expr)
  | extrude axis d => extrude (p.axis axis) (p.expr d)
  | componentSplit c ks => componentSplit c (ks.map (Selection.map g))
  | split axis a q => split axis (p.adjustment a) (q.map p g)

mutual

theorem Item.leaves_map (p : Paraphrase α β) (g : σ → τ) (i : Item α σ) :
    (i.map p g).leaves = i.leaves.map g := by
  match i with
  | .step size s => rfl
  | .nested items _ => exact leavesOf_maps p g items

theorem leavesOf_maps (p : Paraphrase α β) (g : σ → τ) (items : List (Item α σ)) :
    leavesOf (Item.maps p g items) = (leavesOf items).map g := by
  match items with
  | [] => rfl
  | i :: is =>
    rw [Item.maps, leavesOf, leavesOf, List.map_append, Item.leaves_map p g i, leavesOf_maps p g is]

end

namespace Operation
variable (p : Paraphrase α β) (g : σ → τ) (op : Operation α σ)

theorem parts_map : (op.map p g).parts = op.parts.map g := by
  cases op with
  | translate v | rotate v | scale v | extrude axis d => rfl
  | componentSplit c ks => simp [map, parts, Selection.map]
  | split axis a q => exact leavesOf_maps p g q.items

theorem reshapes_map : (op.map p g).reshapes = op.reshapes := by
  cases op <;> rfl

end Operation

def Branch.map (g : σ → τ) (b : Branch α σ) : Branch α τ := ⟨g b.successor, b.shape⟩

namespace Layout

def map (g : σ → τ) (l : Layout α σ) : Layout α τ := ⟨l.branches.map (Branch.map g), l.failure⟩

theorem map_append (g : σ → τ) (l m : Layout α σ) : (l ++ m).map g = l.map g ++ m.map g :=
  each_append (Branch.map g) l m

theorem complete_map (g : σ → τ) (l : Layout α σ) :
    (l.map g).complete = l.complete.map (List.map (Branch.map g)) :=
  complete_each (Branch.map g) l

end Layout

namespace Effect

def map (g : σ → τ) : Effect α σ → Effect α τ
  | replaced h => replaced h
  | divided bs => divided (bs.map (Branch.map g))

@[simp] theorem shapes_map (g : σ → τ) (e : Effect α σ) : (e.map g).shapes = e.shapes := by
  cases e with
  | replaced h => rfl
  | divided bs => simp [map, shapes, Branch.map]

@[simp] theorem successors_map (g : σ → τ) (e : Effect α σ) :
    (e.map g).successors = e.successors.map g := by
  cases e with
  | replaced h => rfl
  | divided bs => simp [map, successors, Branch.map]

theorem map_id (e : Effect α σ) : e.map id = e := by
  cases e with
  | replaced h => rfl
  | divided bs => exact congrArg divided (List.map_id bs)

end Effect

section Apply
variable [Scalar α]

theorem assign_map (g : σ → τ) (parent : Shape α) (ks : List (Selection σ)) (pool : List (Shape α)) :
    assign parent (ks.map (Selection.map g)) pool =
      (assign parent ks pool).map (List.map (Branch.map g)) := by
  induction ks generalizing pool with
  | nil => rfl
  | cons k ks ih =>
    rw [List.map_cons, Selection.map, assign, assign]
    cases sift (fun c => k.selector.selects parent c) pool with
    | error e => rfl
    | ok p =>
      simp only [bind, Except.bind, ih]
      cases assign parent ks p.2 with
      | error e => rfl
      | ok rest => simp [Except.map, pure, Except.pure, Branch.map]

variable {p : Paraphrase α α} {env env' : Env α}

theorem Vec3.eval_map (hp : ∀ e : Expr α, (p.expr e).eval env' = e.eval env) (v : Vec3 (Expr α)) :
    (v.map p.expr).eval env' = v.eval env := by
  simp only [Vec3.eval, Vec3.map, hp]

theorem Item.demand_map (hp : ∀ e : Expr α, (p.expr e).eval env' = e.eval env) (g : σ → τ)
    (i : Item α σ) : (i.map p g).demand env' = i.demand env := by
  rcases i with ⟨e | e, s⟩ | ⟨items, repeats⟩
  · simp only [map, Size.map, demand, hp]
  · simp only [map, Size.map, demand, hp]
  · simp only [map, demand]

theorem demands_maps (hp : ∀ e : Expr α, (p.expr e).eval env' = e.eval env) (g : σ → τ)
    (items : List (Item α σ)) : demands env' (Item.maps p g items) = demands env items := by
  induction items with
  | nil => rfl
  | cons i is ih => rw [Item.maps, demands, demands, Item.demand_map hp, ih]

theorem allocate_maps (hp : ∀ e : Expr α, (p.expr e).eval env' = e.eval env) (g : σ → τ)
    (items : List (Item α σ)) (extent : α) :
    allocate env' (Item.maps p g items) extent = allocate env items extent := by
  rw [allocate, allocate, demands_maps hp]

mutual

theorem Item.layout_map (hp : ∀ e : Expr α, (p.expr e).eval env' = e.eval env) (g : σ → τ)
    (axis : Axis) (piece : Shape α) (i : Item α σ) :
    (i.map p g).layout env' axis piece = (i.layout env axis piece).map g := by
  match i with
  | .step _ s => rfl
  | .nested items _ =>
    rw [Item.map, Item.layout, Item.layout, allocate_maps hp]
    cases allocate env items (piece.extent axis) with
    | error e => rfl
    | ok lengths => exact layoutFrom_maps hp g axis piece 0 items lengths

theorem layoutFrom_maps (hp : ∀ e : Expr α, (p.expr e).eval env' = e.eval env) (g : σ → τ)
    (axis : Axis) (whole : Shape α) (offset : α) (items : List (Item α σ)) (lengths : List α) :
    layoutFrom env' axis whole offset (Item.maps p g items) lengths =
      (layoutFrom env axis whole offset items lengths).map g := by
  match items, lengths with
  | [], _ =>
    simp only [Item.maps, layoutFrom]
    rfl
  | _ :: _, [] =>
    simp only [Item.maps, layoutFrom]
    rfl
  | i :: is, length :: lengths =>
    rw [Item.maps, layoutFrom, layoutFrom, Layout.map_append, Item.layout_map hp g axis _ i,
      layoutFrom_maps hp g axis whole _ is lengths]

end

theorem Pattern.layout_map (hp : ∀ e : Expr α, (p.expr e).eval env' = e.eval env) (g : σ → τ)
    (axis : Axis) (whole : Shape α) (q : Pattern α σ) :
    (q.map p g).layout env' axis whole = (q.layout env axis whole).map g :=
  Item.layout_map hp g axis whole q.toItem

/-- An operation whose expressions keep their values makes the same of a shape, or meets the same
error. -/
theorem Operation.apply_map (hp : ∀ e : Expr α, (p.expr e).eval env' = e.eval env) (g : σ → τ)
    (op : Operation α σ) (h : Shape α) :
    (op.map p g).apply env' h = (op.apply env h).map (Effect.map g) := by
  cases op with
  | translate v | rotate v | scale v =>
    rw [map, apply, apply, Vec3.eval_map hp]
    cases v.eval env <;> rfl
  | extrude axis d =>
    rw [map, apply, apply, hp, p.getD_axis]
    cases d.eval env with
    | error e => rfl
    | ok x =>
      simp only [bind, Except.bind]
      cases h.extrude (axis.getD .z) x <;> rfl
  | componentSplit c ks =>
    rw [map, apply, apply]
    cases h.components c with
    | error e => rfl
    | ok pool =>
      simp only [bind, Except.bind, assign_map]
      cases assign h ks pool <;> rfl
  | split axis a q =>
    rw [map, apply, apply, Pattern.layout_map hp, Layout.complete_map]
    cases (q.layout env axis h).complete <;> rfl

end Apply

section ReadAt
variable [Scalar α]

/-- The expression with what it reads off a shape in the place of the reads. -/
def Expr.readAt (h : Shape α) : Expr α → Expr α
  | constant v m => constant v m
  | attr n m => attr n m
  | scope a m => constant (h.read a) m
  | binary op l r m => binary op (l.readAt h) (r.readAt h) m

theorem Expr.eval_readAt (h : Shape α) (attr : String → Option α) (current : Option (Shape α))
    (e : Expr α) : (e.readAt h).eval ⟨attr, current⟩ = e.eval ⟨attr, some h⟩ := by
  induction e with
  | constant v m | attr n m | scope a m => rfl
  | binary op l r m ihl ihr => rw [readAt, eval, eval, ihl, ihr]

/-- The operation with every read of a scope, also in nested patterns, made at this shape. -/
def Operation.readAt (h : Shape α) (op : Operation α σ) : Operation α σ := op.map (.ofExpr (Expr.readAt h)) id

theorem Operation.apply_readAt (h k : Shape α) (attr : String → Option α) (current : Option (Shape α))
    (op : Operation α σ) : (op.readAt h).apply ⟨attr, current⟩ k = op.apply ⟨attr, some h⟩ k := by
  rw [readAt, apply_map (Expr.eval_readAt h attr current)]
  cases op.apply ⟨attr, some h⟩ k with
  | error e => rfl
  | ok e => exact congrArg Except.ok e.map_id

end ReadAt

section Successor
variable (p : Paraphrase α β)

-- The recursion is structural, so it names the parts that it goes through; by `paraphrase_operation` it is
-- `Operation.map` at every depth, and nothing else is said of it.
mutual

def Successor.paraphrase : Successor α → Successor β
  | .symbol name => .symbol name
  | .operation op => .operation op.paraphrase

def Operation.paraphrase : Operation α (Successor α) → Operation β (Successor β)
  | .translate v => .translate (v.map p.expr)
  | .rotate v => .rotate (v.map p.expr)
  | .scale v => .scale (v.map p.expr)
  | .extrude axis d => .extrude (p.axis axis) (p.expr d)
  | .componentSplit c ks => .componentSplit c (Selection.paraphrases ks)
  | .split axis a ⟨items, repeats⟩ =>
    .split axis (p.adjustment a) ⟨Item.paraphrases items, p.repeats repeats⟩

def Selection.paraphrases : List (Selection (Successor α)) → List (Selection (Successor β))
  | [] => []
  | ⟨selector, s⟩ :: ks => ⟨selector, s.paraphrase⟩ :: Selection.paraphrases ks

def Item.paraphrases : List (Item α (Successor α)) → List (Item β (Successor β))
  | [] => []
  | i :: is => i.paraphrase :: Item.paraphrases is

def Item.paraphrase : Item α (Successor α) → Item β (Successor β)
  | .step size s => .step (size.map p.expr) s.paraphrase
  | .nested items repeats => .nested (Item.paraphrases items) (p.repeats repeats)

end

variable {p}

theorem Selection.paraphrases_eq (ks : List (Selection (Successor α))) :
    Selection.paraphrases p ks = ks.map (Selection.map (Successor.paraphrase p)) := by
  induction ks with
  | nil => rfl
  | cons k ks ih => rw [paraphrases, ih, List.map_cons, Selection.map]

mutual

theorem Item.paraphrases_eq : ∀ items : List (Item α (Successor α)),
    Item.paraphrases p items = Item.maps p (Successor.paraphrase p) items
  | [] => rfl
  | i :: is => by rw [Item.paraphrases, Item.maps, Item.paraphrase_eq i, Item.paraphrases_eq is]

theorem Item.paraphrase_eq : ∀ i : Item α (Successor α), i.paraphrase p = i.map p (Successor.paraphrase p)
  | .step size s => by rw [Item.paraphrase, Item.map]
  | .nested items repeats => by rw [Item.paraphrase, Item.map, Item.paraphrases_eq items]

end

@[simp] theorem Successor.paraphrase_symbol (name : String) :
    (Successor.symbol name : Successor α).paraphrase p = .symbol name := by rw [paraphrase]

/-- The operation of a successor is paraphrased with all that it yields. -/
theorem Successor.paraphrase_operation (op : Operation α (Successor α)) :
    (operation op).paraphrase p = .operation (op.map p (paraphrase p)) := by
  rw [paraphrase]
  cases op with
  | componentSplit c ks => rw [Operation.paraphrase, Selection.paraphrases_eq, Operation.map]
  | split axis a q =>
    rw [Operation.paraphrase, Item.paraphrases_eq]
    rfl
  | _ => simp only [Operation.paraphrase, Operation.map]

end Successor
end ShapeGrammar
