import ShapeGrammar.Proofs.Sharing
import ShapeGrammar.Proofs.Preorder

/-! Splits as intervals. In exact arithmetic a slice of a slice is a slice, so that what a layout makes of
a shape can be read off intervals of its extent: a pattern divides its interval into consecutive ones of
the allocated lengths, at any depth. Where something is shared in every pattern these fill the extent
without a gap. -/
namespace ShapeGrammar
variable {α σ P Q : Type}

/-- A stretch of the extent along which a shape is split. -/
structure Span (α : Type) where
  start : α
  length : α
  deriving DecidableEq, Repr

def Visit.plot? (v : Visit α σ P) : Option (σ × P) :=
  v.step?.bind fun (s, place) => place.map (s, ·)

def Visit.map (f : P → Q) (v : Visit α σ P) : Visit α σ Q := ⟨v.item, v.place.map f⟩

/-- Spans in a row from `a` to `b`; `r` relates the end of each to the start of the next. -/
def Row [Add α] (r : α → α → Prop) (a b : α) : List (Span α) → Prop
  | [] => r a b
  | s :: ss => r a s.start ∧ Row r (s.start + s.length) b ss

namespace Row
variable [Add α] {r : α → α → Prop} [IsPreorder α r] {a b c : α} {ss ts : List (Span α)}

theorem of_left (hab : r a b) (h : Row r b c ss) : Row r a c ss := by
  cases ss with
  | nil => exact trans_of r hab h
  | cons s ss => exact ⟨trans_of r hab h.1, h.2⟩

theorem append (hs : Row r a b ss) (ht : Row r b c ts) : Row r a c (ss ++ ts) := by
  induction ss generalizing a with
  | nil => exact of_left hs ht
  | cons s ss ih => exact ⟨hs.1, ih hs.2⟩

theorem of_right (h : Row r a b ss) (hbc : r b c) : Row r a c ss := by
  rw [← List.append_nil ss]
  exact h.append hbc

end Row

section Definitions
variable [Scalar α]

def Span.stop (s : Span α) : α := s.start + s.length

def Span.ground : Ground α (Span α) where
  extent s := s.length
  part s offset length := ⟨s.start + offset, length⟩

/-- The steps of a pattern that is laid over an extent, with the spans that fall to them. -/
def Pattern.plots (p : Pattern α σ) (env : Env α) (extent : α) : List (σ × Span α) :=
  (p.visits Span.ground env ⟨0, extent⟩).filterMap Visit.plot?

def Shape.over (h : Shape α) (axis : Axis) (s : Span α) : Shape α := h.slice axis s.start s.length

/-- Takes places for places with the same extents and with corresponding parts. -/
structure Ground.Carries (g : Ground α P) (f : P → Q) (g' : Ground α Q) : Prop where
  extent : ∀ p, g'.extent (f p) = g.extent p
  part : ∀ p offset length, g'.part (f p) offset length = f (g.part p offset length)

end Definitions

section Carries
variable [Scalar α] {g : Ground α P} {f : P → Q} {g' : Ground α Q}

theorem Ground.Carries.cut (hf : g.Carries f g') (p : P) (offset : α) (lengths : List α) :
    g'.cut (f p) offset lengths = (g.cut p offset lengths).map f := by
  induction lengths generalizing offset with
  | nil => rfl
  | cons length lengths ih => rw [Ground.cut, Ground.cut, List.map_cons, hf.part, ih]

theorem Ground.Carries.places (hf : g.Carries f g') (env : Env α) (items : List (Item α σ))
    (place : Option P) :
    g'.places env items (place.map f) = (g.places env items place).map f := by
  cases place with
  | none => rfl
  | some p =>
    rw [Option.map_some, Ground.places, Ground.places, hf.extent]
    cases allocate env items (g.extent p) with
    | error e => rfl
    | ok lengths => exact hf.cut p 0 lengths

mutual

theorem Item.visits_map (hf : g.Carries f g') (env : Env α) (place : Option P) (i : Item α σ) :
    i.visits g' env (place.map f) = (i.visits g env place).map (Visit.map f) := by
  match i with
  | .step _ _ => rfl
  | .nested items _ =>
    rw [Item.visits, Item.visits, List.map_cons, hf.places, visitsOf_map hf]
    rfl

theorem visitsOf_map (hf : g.Carries f g') (env : Env α) (items : List (Item α σ)) (places : List P) :
    visitsOf g' env items (places.map f) = (visitsOf g env items places).map (Visit.map f) := by
  match items with
  | [] => rfl
  | i :: is =>
    rw [visitsOf, visitsOf, List.map_append, List.head?_map, ← List.map_tail, Item.visits_map hf,
      visitsOf_map hf]

end

theorem Visit.error?_map (hf : g.Carries f g') (env : Env α) (v : Visit α σ P) :
    (v.map f).error? g' env = v.error? g env := by
  obtain ⟨⟨size, s⟩ | ⟨items, repeats⟩, place⟩ := v
  · rfl
  · cases place with
    | none => rfl
    | some p =>
      simp only [Visit.error?, Visit.map, Option.map_some, hf.extent]

end Carries

theorem Vec3.set_set (v : Vec3 α) (a : Axis) (c d : α) : (v.set a c).set a d = v.set a d := by
  cases a <;> rfl

theorem Vec3.set_get (v : Vec3 α) (a : Axis) : v.set a (v.get a) = v := by
  cases a <;> rfl

theorem Layout.filterMap_steps (l : Layout α σ) :
    l.steps.filterMap (fun q => q.2.map (Branch.mk q.1)) = l.branches := by
  rw [steps, List.filterMap_map]
  exact List.filterMap_some

theorem Shape.transform_slice [Scalar α] (h : Shape α) (axis : Axis) (offset length : α) :
    (h.slice axis offset length).transform = h.transform.translate
      (axis.unit.scale (offset - h.extent axis * Scalar.half + length * Scalar.half)) := rfl

variable [ExactScalar α]

namespace Mat4

theorem translate_translate (m : Mat4 α) (axis : Axis) (s t : α) :
    (m.translate (axis.unit.scale s)).translate (axis.unit.scale t) =
      m.translate (axis.unit.scale (s + t)) := by
  have hadd : displacement (axis.unit.scale s) * displacement (axis.unit.scale t) =
      displacement (axis.unit.scale (s + t)) := by
    cases axis <;> ext <;> simp [displacement, identity, Vec4.ofVec3, Axis.unit, Vec3.scale, add_comm]
  rw [translate, translate, mul_assoc, hadd, translate]

theorem translate_zero (m : Mat4 α) (axis : Axis) : m.translate (axis.unit.scale 0) = m := by
  cases axis <;> ext <;>
    simp [translate, displacement, identity, Vec4.ofVec3, Axis.unit, Vec3.scale]

end Mat4

namespace Shape

/-- Re-centring a slice within a slice comes to re-centring it within the whole at once. -/
theorem slice_slice (h : Shape α) (axis : Axis) (offset length offset' length' : α) :
    (h.slice axis offset length).slice axis offset' length' = h.slice axis (offset + offset') length' := by
  have hshift : offset - h.extent axis * Scalar.half + length * Scalar.half +
      (offset' - length * Scalar.half + length' * Scalar.half) =
      offset + offset' - h.extent axis * Scalar.half + length' * Scalar.half := by ring
  have htransform : ((h.slice axis offset length).slice axis offset' length').transform =
      (h.slice axis (offset + offset') length').transform := by
    rw [transform_slice, extent_slice, transform_slice, transform_slice, Mat4.translate_translate, hshift]
  exact congrArg₂ (fun m v => Shape.mk h.kind ⟨m, v⟩) htransform (Vec3.set_set h.size axis length length')

theorem slice_whole (h : Shape α) (axis : Axis) : h.slice axis 0 (h.extent axis) = h := by
  have hshift : 0 - h.extent axis * Scalar.half + h.extent axis * Scalar.half = 0 := by ring
  have htransform : (h.slice axis 0 (h.extent axis)).transform = h.transform := by
    rw [transform_slice, hshift, Mat4.translate_zero]
  exact congrArg₂ (fun m v => Shape.mk h.kind ⟨m, v⟩) htransform (Vec3.set_get h.size axis)

end Shape

theorem Span.carries (h : Shape α) (axis : Axis) :
    Span.ground.Carries (h.over axis) (Shape.ground axis) where
  extent s := h.extent_slice axis s.start s.length
  part s offset length := h.slice_slice axis s.start s.length offset length

theorem Pattern.visits_over (p : Pattern α σ) (env : Env α) (axis : Axis) (whole : Shape α) :
    p.visits (Shape.ground axis) env whole =
      (p.visits Span.ground env ⟨0, whole.extent axis⟩).map (Visit.map (whole.over axis)) := by
  have hwhole : whole.over axis ⟨0, whole.extent axis⟩ = whole := whole.slice_whole axis
  rw [visits, visits, ← Item.visits_map (Span.carries whole axis), Option.map_some, hwhole]

/-- A pattern that is shared out over its span into lengths with some property. -/
def Visit.Allots (P : Span α → List α → Prop) (env : Env α) (v : Visit α σ (Span α)) : Prop :=
  match v.item, v.place with
  | .nested items _, some span => ∃ lengths, allocate env items span.length = .ok lengths ∧ P span lengths
  | _, _ => True

/-- Lengths that end, in a row, where a span does, up to `r`. -/
def Span.Closes (r : α → α → Prop) (s : Span α) (lengths : List α) : Prop :=
  r (s.start + lengths.sum) s.stop

section Row
variable {r : α → α → Prop} [IsPreorder α r] {env : Env α}

mutual

/-- The spans of the steps in an item are in a row over its own span, if this holds level by level. -/
theorem Item.row_visits (span : Span α) (i : Item α σ)
    (h : ∀ v ∈ i.visits Span.ground env (some span), v.Allots (Span.Closes r) env) :
    Row r span.start span.stop
      (((i.visits Span.ground env (some span)).filterMap Visit.plot?).map (·.2)) := by
  match i with
  | .step _ s => exact ⟨refl_of r _, refl_of r _⟩
  | .nested items _ =>
    rw [Item.visits, List.forall_mem_cons] at h
    obtain ⟨⟨lengths, ha, hend⟩, h⟩ := h
    have hplaces := Span.ground.places_of_allocate ha
    rw [hplaces] at h
    have hrow := row_visitsOf span 0 items lengths (length_allocate ha) h
    rw [zero_add, add_zero] at hrow
    rw [Item.visits, hplaces]
    exact hrow.of_right hend

theorem row_visitsOf (span : Span α) (offset : α) (items : List (Item α σ)) (lengths : List α)
    (hl : lengths.length = items.length)
    (h : ∀ v ∈ visitsOf Span.ground env items (Span.ground.cut span offset lengths),
      v.Allots (Span.Closes r) env) :
    Row r (span.start + offset) (span.start + (offset + lengths.sum))
      (((visitsOf Span.ground env items (Span.ground.cut span offset lengths)).filterMap Visit.plot?).map
        (·.2)) := by
  match items, lengths with
  | [], [] =>
    rw [List.sum_nil, add_zero]
    exact refl_of r _
  | [], _ :: _ => cases hl
  | _ :: _, [] => cases hl
  | i :: is, length :: lengths =>
    rw [Ground.cut, visitsOf, List.forall_mem_append] at h
    have hi := Item.row_visits _ i h.1
    have his := row_visitsOf span (offset + length) is lengths (Nat.succ.inj hl) h.2
    have hstop : (Span.ground.part span offset length).stop = span.start + (offset + length) :=
      add_assoc span.start offset length
    rw [hstop] at hi
    rw [Ground.cut, visitsOf, List.filterMap_append, List.map_append, List.sum_cons, ← add_assoc offset]
    exact hi.append his

end

end Row

theorem Pattern.branches_layout {p : Pattern α σ} {env : Env α} {axis : Axis} {whole : Shape α}
    (h : (p.layout env axis whole).failure = none) :
    (p.layout env axis whole).branches =
      (p.plots env (whole.extent axis)).map fun q => ⟨q.1, whole.over axis q.2⟩ := by
  have hsteps : (p.layout env axis whole).steps =
      (p.visits (Shape.ground axis) env whole).filterMap Visit.step? :=
    (Item.lays env axis whole p.toItem).steps_eq h
  rw [← Layout.filterMap_steps, hsteps, visits_over, plots, List.filterMap_map, List.filterMap_filterMap,
    List.map_filterMap]
  refine List.filterMap_congr fun v _ => ?_
  obtain ⟨⟨size, s⟩ | ⟨items, repeats⟩, _ | span⟩ := v <;> rfl

theorem Visit.allots {P : Span α → List α → Prop} {env : Env α} {v : Visit α σ (Span α)}
    (hv : v.error? Span.ground env = none)
    (hP : ∀ items repeats span lengths, v = ⟨.nested items repeats, some span⟩ →
      allocate env items span.length = .ok lengths → P span lengths) : v.Allots P env := by
  obtain ⟨⟨size, s⟩ | ⟨items, repeats⟩, _ | span⟩ := v
  · trivial
  · trivial
  · trivial
  · cases ha : allocate env items span.length with
    | error e => simp [Visit.error?, Span.ground, ha] at hv
    | ok lengths => exact ⟨lengths, ha, hP items repeats span lengths rfl ha⟩

theorem Pattern.error?_spans {p : Pattern α σ} {env : Env α} {axis : Axis} {whole : Shape α}
    (h : (p.layout env axis whole).failure = none) :
    ∀ v ∈ p.visits Span.ground env ⟨0, whole.extent axis⟩, v.error? Span.ground env = none := by
  have hvisits := (Item.lays env axis whole p.toItem).failure_eq_none_iff.mp h
  intro v hv
  rw [← Visit.error?_map (Span.carries whole axis)]
  refine hvisits _ ?_
  have hover := p.visits_over env axis whole
  rw [visits] at hover
  rw [hover]
  exact List.mem_map_of_mem hv

/-- Splits that are nested to any depth cut a shape up at once. -/
theorem Pattern.nested_splits_tile (p : Pattern α σ) (env : Env α) (axis : Axis) (whole : Shape α)
    (h : (p.layout env axis whole).failure = none) :
    let layout := p.layout env axis whole
    let plots := p.plots env (whole.extent axis)
    plots.map (·.1) = leavesOf p.items ∧
    layout.branches = plots.map (fun q => ⟨q.1, whole.slice axis q.2.start q.2.length⟩) ∧
    (∀ b ∈ layout.branches, b.shape.kind = whole.kind ∧
      b.shape.transform.x = whole.transform.x ∧ b.shape.transform.y = whole.transform.y ∧
      b.shape.transform.z = whole.transform.z ∧ ∀ a, a ≠ axis → b.shape.extent a = whole.extent a) ∧
    ((∀ items repeats, .nested items repeats ∈ p.toItem.preorder → ∃ i ∈ items, i.shares = true) →
      Row (· = ·) 0 (whole.extent axis) (plots.map (·.2))) := by
  intro layout plots
  have hbranches : layout.branches = plots.map fun q => ⟨q.1, whole.over axis q.2⟩ := branches_layout h
  refine ⟨?_, hbranches, ?_, fun hshares => ?_⟩
  · have hleaves : layout.branches.map (·.successor) = leavesOf p.items :=
      Item.layout_successors axis whole p.toItem h
    rwa [hbranches, List.map_map] at hleaves
  · rw [hbranches, List.forall_mem_map]
    intro q _
    exact ⟨rfl, Mat4.translate_x _ _, Mat4.translate_y _ _, Mat4.translate_z _ _,
      fun a ha => whole.size.get_set_of_ne _ ha⟩
  · have hcloses : ∀ v ∈ p.visits Span.ground env ⟨0, whole.extent axis⟩,
        v.Allots (Span.Closes (· = ·)) env := by
      intro v hv
      refine Visit.allots (error?_spans h v hv) fun items repeats span lengths hitem ha => ?_
      have hmem := Pattern.item_mem_preorder hv
      rw [hitem] at hmem
      rw [Span.Closes, sum_allocate ha (hshares items repeats hmem), Span.stop]
    have hrow := p.toItem.row_visits ⟨0, whole.extent axis⟩ hcloses
    rwa [Span.stop, zero_add] at hrow

theorem Pattern.nested_splits_tile_arcade :
    let env : Env ℚ := ⟨fun _ => none, none⟩
    let wall : Shape ℚ := ⟨.box, (Rotation.aboutY 1).toMat4.translate ⟨4, 5, 6⟩, 9, 3, 1⟩
    let layout := (arcade 1).layout env .x wall
    let plots := (arcade 1).plots env (wall.extent .x)
    layout.failure = none ∧
    (∀ items repeats, .nested items repeats ∈ (arcade 1).toItem.preorder → ∃ i ∈ items, i.shares = true) ∧
    plots = [("pier", ⟨0, 1⟩), ("arch", ⟨1, 2⟩), ("niche", ⟨3, 1⟩), ("arch", ⟨4, 1⟩), ("pier", ⟨5, 4⟩)] ∧
    layout.branches = plots.map (fun q => ⟨q.1, wall.slice .x q.2.start q.2.length⟩) ∧
    Row (· = ·) 0 9 (plots.map (·.2)) := by
  intro env wall layout plots
  have hdone : layout.failure = none := by decide +kernel
  have hshares : ∀ items repeats, .nested items repeats ∈ (arcade 1).toItem.preorder →
      ∃ i ∈ items, i.shares = true := by
    simp [arcade, ofItems, toItem, Item.preorder, preorderOf, Item.shares]
  obtain ⟨-, hbranches, -, htiles⟩ := nested_splits_tile (arcade 1) env .x wall hdone
  exact ⟨hdone, hshares, by decide +kernel, hbranches, htiles hshares⟩

end ShapeGrammar
