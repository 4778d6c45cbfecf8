import ShapeGrammar.Proofs.Rigidity
import ShapeGrammar.Proofs.Equivariance

/-! Derivations commute with rigid motions. A motion of space carries a shape along with its frame and
leaves its kind and its extents alone. All that operations make of a shape is placed in the frame of
the shape, and faces are told apart by angles, which a motion keeps; so a grammar that does not read
where shapes are derives the same from an axiom wherever it is. -/
namespace ShapeGrammar
variable {α σ : Type}

def ScopeAttribute.IsSize (a : ScopeAttribute) : Prop := ∃ axis, a = .size axis

/-- An operation whose parameters do not read where a shape is or how it is turned. -/
def Operation.Placeless (op : Operation α σ) : Prop := ∀ a ∈ op.scopes, a.IsSize

/-- The components that a test accepts are the images of those that another test accepts, if it
accepts an image just where the other accepts the component. -/
theorem sift_map {accepts accepts' : Shape α → Except Error Bool} {f : Shape α → Shape α}
    {pool : List (Shape α)} (h : ∀ c ∈ pool, accepts' (f c) = accepts c) :
    sift accepts' (pool.map f) = (sift accepts pool).map (Prod.map (List.map f) (List.map f)) := by
  induction pool with
  | nil => rfl
  | cons c cs ih =>
    obtain ⟨hc, hcs⟩ := List.forall_mem_cons.mp h
    rw [List.map_cons, sift, sift, hc, ih hcs]
    cases accepts c with
    | error e => rfl
    | ok accepted =>
      cases sift accepts cs with
      | error e => rfl
      | ok p => cases accepted <;> rfl

def Shape.moved [Scalar α] (m : Mat4 α) (h : Shape α) : Shape α := h.withTransform (m * h.transform)

variable [ExactScalar α] {m : Mat4 α}

namespace Shape

@[simp] theorem kind_moved (m : Mat4 α) (h : Shape α) : (h.moved m).kind = h.kind := rfl
@[simp] theorem size_moved (m : Mat4 α) (h : Shape α) : (h.moved m).size = h.size := rfl
@[simp] theorem transform_moved (m : Mat4 α) (h : Shape α) :
    (h.moved m).transform = m * h.transform := rfl

theorem read_moved (m : Mat4 α) (h : Shape α) {a : ScopeAttribute} (ha : a.IsSize) :
    (h.moved m).read a = h.read a := by
  obtain ⟨axis, rfl⟩ := ha
  rfl

theorem translate_moved (m : Mat4 α) (h : Shape α) (v : Vec3 α) :
    (h.moved m).withTransform ((h.moved m).transform.translate v) =
      (h.withTransform (h.transform.translate v)).moved m :=
  congrArg h.withTransform (Mat4.mul_translate m h.transform v).symm

theorem rotate_moved (m : Mat4 α) (h : Shape α) (q : Rotation α) :
    (h.moved m).withTransform ((h.moved m).transform.rotate q) =
      (h.withTransform (h.transform.rotate q)).moved m :=
  congrArg h.withTransform (Mat4.mul_rotate m h.transform q).symm

theorem slice_moved (m : Mat4 α) (h : Shape α) (axis : Axis) (offset length : α) :
    (h.moved m).slice axis offset length = (h.slice axis offset length).moved m :=
  congrArg (h.slice axis offset length).withTransform (Mat4.mul_translate m h.transform _).symm

theorem quad_moved (m : Mat4 α) (h : Shape α) (f : Face) :
    Face.quad (h.moved m).scope f = (Face.quad h.scope f).moved m :=
  congrArg (Face.quad h.scope f).withTransform (Mat4.mul_rotate_translate m h.transform f.turn _)

theorem components_moved (m : Mat4 α) (h : Shape α) (c : Component) :
    (h.moved m).components c = (h.components c).map (List.map (moved m)) := by
  cases hk : h.kind with
  | quad => simp [components, hk, Except.map]
  | box => cases c <;> simp [components, hk, Except.map, quad_moved]

theorem extrude_moved (m : Mat4 α) (h : Shape α) (axis : Axis) (d : α) :
    (h.moved m).extrude axis d = (h.extrude axis d).map (moved m) := by
  cases hk : h.kind with
  | box => simp [extrude, hk, Except.map]
  | quad =>
    cases axis with
    | x | y => simp [extrude, hk, Except.map]
    | z =>
      simp only [extrude, hk, kind_moved, transform_moved, Mat4.mul_rotate_translate]
      rfl

end Shape

section Layout
variable (m : Mat4 α) (env : Env α) (axis : Axis)

mutual

theorem Item.layout_moved (piece : Shape α) (i : Item α σ) :
    i.layout env axis (piece.moved m) = (i.layout env axis piece).each (Branch.mapShape (.moved m)) := by
  match i with
  | .step _ s =>
    rw [Item.layout, Item.layout]
    rfl
  | .nested items _ =>
    have hextent : (piece.moved m).extent axis = piece.extent axis := rfl
    rw [Item.layout, Item.layout, hextent]
    cases allocate env items (piece.extent axis) with
    | error e => rfl
    | ok lengths => exact layoutFrom_moved piece 0 items lengths

theorem layoutFrom_moved (whole : Shape α) (offset : α) (items : List (Item α σ)) (lengths : List α) :
    layoutFrom env axis (whole.moved m) offset items lengths =
      (layoutFrom env axis whole offset items lengths).each (Branch.mapShape (.moved m)) := by
  match items, lengths with
  | [], _ =>
    simp only [layoutFrom]
    rfl
  | _ :: _, [] =>
    simp only [layoutFrom]
    rfl
  | i :: is, length :: lengths =>
    rw [layoutFrom, layoutFrom, Layout.each_append, Shape.slice_moved, Item.layout_moved _ i,
      layoutFrom_moved whole _ is lengths]

end

end Layout

theorem FaceSelector.selects_moved (hm : m.Rigid) {parent component : Shape α}
    (hp : parent.transform.Affine) (hc : component.transform.Affine) (s : FaceSelector) :
    s.selects (parent.moved m) (component.moved m) = s.selects parent component := by
  have hcosine (a : Axis) : ((parent.moved m).transform.axis a).dot (component.moved m).normal =
      (parent.transform.axis a).dot component.normal := by
    rw [Shape.normal, Shape.normal, Shape.transform_moved, Shape.transform_moved, Mat4.axis_mul m hp,
      Mat4.axis_mul m hc, hm.dot_direct]
  simp only [selects, hcosine, Shape.kind_moved]

theorem assign_moved (hm : m.Rigid) {parent : Shape α} (hp : parent.transform.Affine)
    (ks : List (Selection σ)) {pool : List (Shape α)} (hpool : ∀ c ∈ pool, c.transform.Affine) :
    assign (parent.moved m) ks (pool.map (.moved m)) =
      (assign parent ks pool).map (List.map (Branch.mapShape (.moved m))) := by
  induction ks generalizing pool with
  | nil => rfl
  | cons k ks ih =>
    have hsift : sift (fun c => k.selector.selects (parent.moved m) c) (pool.map (.moved m)) =
        (sift (fun c => k.selector.selects parent c) pool).map (Prod.map (List.map _) (List.map _)) :=
      sift_map fun c hc => k.selector.selects_moved hm hp (hpool c hc)
    rw [assign, assign, hsift]
    cases hs : sift (fun c => k.selector.selects parent c) pool with
    | error e => rfl
    | ok p =>
      obtain ⟨ins, outs⟩ := p
      have hrest := ih fun c hc => hpool c ((mem_of_sift hs).2 c hc)
      simp only [bind, Except.bind, Except.map, Prod.map] at hrest ⊢
      rw [hrest]
      cases assign parent ks outs with
      | error e => rfl
      | ok rest => simp [pure, Except.pure, Branch.mapShape]

namespace Operation

theorem apply_moved (hm : m.Rigid) {h : Shape α} (hh : h.transform.Affine) (env : Env α)
    (op : Operation α σ) :
    op.apply env (h.moved m) = (op.apply env h).map (Effect.mapShapes (.moved m)) := by
  cases op with
  | translate v =>
    rw [apply, apply]
    cases v.eval env with
    | error e => rfl
    | ok w => exact congrArg (Except.ok ∘ Effect.replaced) (h.translate_moved m w)
  | rotate v =>
    rw [apply, apply]
    cases v.eval env with
    | error e => rfl
    | ok w => exact congrArg (Except.ok ∘ Effect.replaced) (h.rotate_moved m _)
  | scale v =>
    rw [apply, apply]
    cases v.eval env <;> rfl
  | extrude axis d =>
    rw [apply, apply]
    cases d.eval env with
    | error e => rfl
    | ok x =>
      simp only [bind, Except.bind, Shape.extrude_moved]
      cases h.extrude (axis.getD .z) x <;> rfl
  | componentSplit c ks =>
    rw [apply, apply, Shape.components_moved]
    cases hpool : h.components c with
    | error e => rfl
    | ok pool =>
      have haffine : ∀ k ∈ pool, k.transform.Affine :=
        fun k hk => (Shape.reaches_components hpool k hk).affine hh
      simp only [bind, Except.bind, Except.map, assign_moved hm hh ks haffine]
      cases assign h ks pool <;> rfl
  | split axis adjustment p =>
    have hlayout : p.layout env axis (h.moved m) =
        (p.layout env axis h).each (Branch.mapShape (.moved m)) :=
      Item.layout_moved m env axis h p.toItem
    rw [apply, apply, hlayout, Layout.complete_each]
    cases (p.layout env axis h).complete <;> rfl

end Operation

namespace Grammar

theorem respects_moved (g : Grammar α) (hm : m.Rigid) {op : Operation α (Successor α)}
    (hop : op.Placeless) : g.Respects (.moved m) (·.transform.Affine) op := by
  intro h hh
  -- first the environment is moved back, which the operation cannot see, then the shape itself
  have henv : Env.Alike op.reads op.scopes ⟨g.attr?, some (h.moved m)⟩ ⟨g.attr?, some h⟩ :=
    ⟨fun _ _ => rfl, fun a ha => congrArg some (h.read_moved m (hop a ha))⟩
  rw [Operation.apply_alike henv, Operation.apply_moved hm hh]

theorem handsOn_affine (g : Grammar α) (op : Operation α (Successor α)) :
    g.HandsOn (·.transform.Affine) op :=
  fun _ _ hh he k hk => (Operation.reaches_apply he k hk).affine hh

variable [Numeral α]

/-- From an axiom that was carried along by a rigid motion a grammar that does not read where shapes
are has the same answer, with all shapes carried along: the same error, or as many steps and the same
shapes in the same order, each in its frame moved. -/
theorem derivations_commute_with_motions {g : Grammar α} (hg : g.UsesOnly Operation.Placeless)
    (ax : Axiom α) (hax : ax.shape.transform.Affine) (hm : m.Rigid) (config : Config) (fuel : Nat) :
    g.derive? config ⟨ax.symbol, ax.shape.moved m⟩ fuel =
      (g.derive? config ax fuel).map (·.map (Derivation.map (.moved m))) := by
  have hmoves : g.Moves (.moved m) (Successor.UsesOnly Operation.Placeless) (·.transform.Affine) :=
    { hg.inherits fun op _ => g.handsOn_affine op with
      respects := fun op hop => g.respects_moved hm (Successor.usesOnly_operation.mp hop).1 }
  exact hmoves.derive? (Successor.usesOnly_symbol ax.symbol) hax config fuel

/-- A pavilion that is as high as its site is wide, with piers at a quarter of the width of a wall. -/
def pavilion : Grammar ℚ :=
  let width : Expr ℚ := .scope (.size .x) .plain
  let number (x : ℚ) : Expr ℚ := .constant x .plain
  { statements :=
      [.rule ⟨"site", [.operation (.rotate ⟨number 0, number 90, number 0⟩),
          .operation (.extrude none width),
          .operation (.componentSplit .faces [⟨.front, .symbol "door"⟩, ⟨.all, .symbol "wall"⟩])]⟩,
        .rule ⟨"wall", [.operation (.split .x none (.ofItems
          [.step (.absolute (.binary .div width (number 4) .plain)) (.symbol "pier"),
            .step (.relative (number 1)) (.symbol "pane")]))]⟩] }

theorem pavilion_placeless : pavilion.UsesOnly Operation.Placeless := by
  simp [UsesOnly, pavilion, rules, Statement.rule?, Operation.Placeless, Operation.parts,
    Operation.scopes, leavesOf, Item.leaves, scopesOf, Item.scopes, Size.scopes, Vec3.scopes, Expr.scopes,
    Pattern.ofItems, ScopeAttribute.IsSize]

theorem derivations_commute_with_motions_pavilion :
    let aside : Mat4 ℚ := (Rotation.aboutX 1).toMat4.translate ⟨1, 2, 3⟩
    let lot : Shape ℚ := .unitQuad
    pavilion.UsesOnly Operation.Placeless ∧ lot.transform.Affine ∧ aside.Rigid ∧
      ∃ d, pavilion.derive? ⟨none, true⟩ ⟨"site", lot⟩ 30 = some (.ok d) ∧ d.finished.length = 11 ∧
        pavilion.derive? ⟨none, true⟩ ⟨"site", lot.moved aside⟩ 30 = some (.ok (d.map (.moved aside))) := by
  intro aside lot
  have hlot : lot.transform.Affine := Mat4.affine_identity
  have haside : aside.Rigid :=
    (Rotation.unit_aboutX sin_sq_add_cos_sq_rat 1).rigid_toMat4.translate ⟨1, 2, 3⟩
  have hmoved := derivations_commute_with_motions pavilion_placeless ⟨"site", lot⟩ hlot haside
    ⟨none, true⟩ 30
  obtain ⟨d, hd, hlength⟩ := exists_derive?_of_map pavilion ⟨none, true⟩ ⟨"site", lot⟩ 30
    (·.finished.length) 11 (by decide +kernel)
  refine ⟨pavilion_placeless, hlot, haside, d, hd, hlength, ?_⟩
  rw [hmoved, hd]
  rfl

end Grammar
end ShapeGrammar
