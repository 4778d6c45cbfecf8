import ShapeGrammar.Operation

/-! What operations read. Of the declared attributes the parameters of an operation read those they
name, of the shapes the current one, and of this the parts they name; other differences between
environments do not count. -/
namespace ShapeGrammar
variable {α σ : Type}

def Expr.reads : Expr α → List String
  | constant _ _ | scope _ _ => []
  | attr n _ => [n]
  | binary _ l r _ => l.reads ++ r.reads

def Vec3.reads (v : Vec3 (Expr α)) : List String := v.x.reads ++ (v.y.reads ++ v.z.reads)

def Size.reads : Size α → List String
  | absolute e | relative e => e.reads

mutual

/-- The attributes read by the sizes in an item; its successors have parameters of their own. -/
def Item.reads : Item α σ → List String
  | .step size _ => size.reads
  | .nested items _ => readsOf items

def readsOf : List (Item α σ) → List String
  | [] => []
  | i :: is => i.reads ++ readsOf is

end

def Operation.reads : Operation α σ → List String
  | translate v | rotate v | scale v => v.reads
  | extrude _ d => d.reads
  | componentSplit _ _ => []
  | split _ _ p => readsOf p.items

def Expr.scopes : Expr α → List ScopeAttribute
  | constant _ _ | attr _ _ => []
  | scope a _ => [a]
  | binary _ l r _ => l.scopes ++ r.scopes

def Vec3.scopes (v : Vec3 (Expr α)) : List ScopeAttribute := v.x.scopes ++ (v.y.scopes ++ v.z.scopes)

def Size.scopes : Size α → List ScopeAttribute
  | absolute e | relative e => e.scopes

mutual

def Item.scopes : Item α σ → List ScopeAttribute
  | .step size _ => size.scopes
  | .nested items _ => scopesOf items

def scopesOf : List (Item α σ) → List ScopeAttribute
  | [] => []
  | i :: is => i.scopes ++ scopesOf is

end

def Operation.scopes : Operation α σ → List ScopeAttribute
  | translate v | rotate v | scale v => v.scopes
  | extrude _ d => d.scopes
  | componentSplit _ _ => []
  | split _ _ p => scopesOf p.items

/-- Environments with the same shape at hand and the same values of some attributes. -/
structure Env.AgreeOn (names : List String) (env env' : Env α) : Prop where
  shape : env.shape = env'.shape
  attr : ∀ n ∈ names, env.attr n = env'.attr n

variable [Scalar α]

/-- Environments with the same values of some attributes and of some parts of the shape at hand. -/
structure Env.Alike (names : List String) (parts : List ScopeAttribute) (env env' : Env α) : Prop where
  attr : ∀ n ∈ names, env.attr n = env'.attr n
  part : ∀ a ∈ parts, env.shape.map (·.read a) = env'.shape.map (·.read a)

variable {env env' : Env α} {ns ms : List String} {ps qs : List ScopeAttribute}

theorem Env.AgreeOn.alike (h : AgreeOn ns env env') (ps : List ScopeAttribute) : Alike ns ps env env' :=
  ⟨h.attr, fun _ _ => by rw [h.shape]⟩

theorem Env.Alike.mono (h : Alike ms qs env env') (hn : ns ⊆ ms) (hp : ps ⊆ qs) : Alike ns ps env env' :=
  ⟨fun n hmem => h.attr n (hn hmem), fun a hmem => h.part a (hp hmem)⟩

theorem Env.Alike.left (h : Alike (ns ++ ms) (ps ++ qs) env env') : Alike ns ps env env' :=
  h.mono (List.subset_append_left ns ms) (List.subset_append_left ps qs)

theorem Env.Alike.right (h : Alike (ns ++ ms) (ps ++ qs) env env') : Alike ms qs env env' :=
  h.mono (List.subset_append_right ns ms) (List.subset_append_right ps qs)

theorem Expr.eval_congr {e : Expr α} (h : Env.Alike e.reads e.scopes env env') :
    e.eval env = e.eval env' := by
  induction e with
  | constant v m => rfl
  | attr n m => rw [eval, eval, Env.value, Env.value, h.attr n (by simp [reads])]
  | scope a m =>
    have hread := h.part a (by simp [scopes])
    rw [eval, eval, Env.target, Env.target]
    cases hs : env.shape <;> cases hs' : env'.shape <;> simp [hs, hs'] at hread
    · rfl
    · simp [Except.map, hread]
  | binary op l r m ihl ihr => rw [eval, eval, ihl h.left, ihr h.right]

theorem Vec3.eval_congr {v : Vec3 (Expr α)} (h : Env.Alike v.reads v.scopes env env') :
    v.eval env = v.eval env' := by
  rw [eval, eval, Expr.eval_congr h.left, Expr.eval_congr h.right.left, Expr.eval_congr h.right.right]

theorem Item.demand_congr {i : Item α σ} (h : Env.Alike i.reads i.scopes env env') :
    i.demand env = i.demand env' := by
  rcases i with ⟨e | e, s⟩ | ⟨items, repeats⟩
  · rw [demand, demand, Expr.eval_congr h]
  · rw [demand, demand, Expr.eval_congr h]
  · rfl

theorem demands_congr {items : List (Item α σ)} (h : Env.Alike (readsOf items) (scopesOf items) env env') :
    demands env items = demands env' items := by
  induction items with
  | nil => rfl
  | cons i is ih => rw [demands, demands, Item.demand_congr h.left, ih h.right]

theorem allocate_congr {items : List (Item α σ)} {extent : α}
    (h : Env.Alike (readsOf items) (scopesOf items) env env') :
    allocate env items extent = allocate env' items extent := by
  rw [allocate, allocate, demands_congr h]

mutual

theorem Item.layout_congr (axis : Axis) (piece : Shape α) (i : Item α σ)
    (h : Env.Alike i.reads i.scopes env env') : i.layout env axis piece = i.layout env' axis piece := by
  match i with
  | .step _ s => rfl
  | .nested items _ =>
    rw [Item.layout, Item.layout, allocate_congr h]
    cases allocate env' items (piece.extent axis) with
    | error e => rfl
    | ok lengths => exact layoutFrom_congr axis piece 0 items lengths h

theorem layoutFrom_congr (axis : Axis) (whole : Shape α) (offset : α) (items : List (Item α σ))
    (lengths : List α) (h : Env.Alike (readsOf items) (scopesOf items) env env') :
    layoutFrom env axis whole offset items lengths = layoutFrom env' axis whole offset items lengths := by
  match items, lengths with
  | [], _ => simp [layoutFrom]
  | _ :: _, [] => simp [layoutFrom]
  | i :: is, length :: lengths =>
    rw [layoutFrom, layoutFrom, Item.layout_congr axis _ i h.left,
      layoutFrom_congr axis whole _ is lengths h.right]

end

namespace Operation

theorem apply_alike {op : Operation α σ} (h : Env.Alike op.reads op.scopes env env') (k : Shape α) :
    op.apply env k = op.apply env' k := by
  cases op with
  | translate v | rotate v | scale v => rw [apply, apply, Vec3.eval_congr h]
  | extrude axis d => rw [apply, apply, Expr.eval_congr h]
  | componentSplit c ks => rfl
  | split axis adjustment p =>
    have hp : p.layout env axis k = p.layout env' axis k := Item.layout_congr axis k p.toItem h
    rw [apply, apply, hp]

theorem apply_congr {op : Operation α σ} (h : Env.AgreeOn op.reads env env') (k : Shape α) :
    op.apply env k = op.apply env' k :=
  apply_alike (h.alike op.scopes) k

end Operation

end ShapeGrammar
