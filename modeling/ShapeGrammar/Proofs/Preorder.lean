import ShapeGrammar.Proofs.Exact
import ShapeGrammar.Proofs.Branches

/-! The way of a layout through a pattern. It meets every item before the items in it, from left to right,
and each of them at the place that it is given by the lengths of the pattern it stands in. A layout
fails just if some pattern cannot be shared out over its place; it then breaks off at the first of
these, and what it leaves behind are the branches of the steps met before. -/
namespace ShapeGrammar
variable {α σ P : Type}

mutual

/-- An item and the items in it, each before those in it, from left to right. -/
def Item.preorder : Item α σ → List (Item α σ)
  | .step size s => [.step size s]
  | .nested items repeats => .nested items repeats :: preorderOf items

def preorderOf : List (Item α σ) → List (Item α σ)
  | [] => []
  | i :: is => i.preorder ++ preorderOf is

end

theorem mem_preorderOf {i : Item α σ} {items : List (Item α σ)} (hi : i ∈ items) :
    i ∈ preorderOf items := by
  induction items with
  | nil => cases hi
  | cons j js ih =>
    rw [preorderOf, List.mem_append]
    rcases List.mem_cons.mp hi with rfl | hi
    · exact .inl (by cases i <;> simp [Item.preorder])
    · exact .inr (ih hi)

section Nested
variable {i : Item α σ} {items : List (Item α σ)} {repeats : Bool}

mutual

theorem Item.mem_preorder_of_nested (hi : i ∈ items) (j : Item α σ)
    (h : .nested items repeats ∈ j.preorder) :
    i ∈ j.preorder := by
  match j with
  | .step _ _ => simp [Item.preorder] at h
  | .nested js _ =>
    rw [Item.preorder, List.mem_cons] at h ⊢
    rcases h with h | h
    · cases h
      exact .inr (mem_preorderOf hi)
    · exact .inr (mem_preorderOf_of_nested hi js h)

theorem mem_preorderOf_of_nested (hi : i ∈ items) (js : List (Item α σ))
    (h : .nested items repeats ∈ preorderOf js) : i ∈ preorderOf js := by
  match js with
  | [] => cases h
  | j :: js =>
    rw [preorderOf, List.mem_append] at h ⊢
    exact h.imp (Item.mem_preorder_of_nested hi j) (mem_preorderOf_of_nested hi js)

end

end Nested

/-- Places that a pattern can be laid over: each has an extent, and a part of a given length at every
offset from its lower bound. -/
structure Ground (α P : Type) where
  extent : P → α
  part : P → α → α → P

/-- An item that is met with the place given to it; what stands in a pattern that cannot be shared out
is given none. -/
structure Visit (α σ P : Type) where
  item : Item α σ
  place : Option P

def Visit.step? (v : Visit α σ P) : Option (σ × Option P) :=
  match v.item with
  | .step _ s => some (s, v.place)
  | .nested _ _ => none

variable [Scalar α]

def Shape.ground (axis : Axis) : Ground α (Shape α) where
  extent h := h.extent axis
  part h := h.slice axis

namespace Ground

def cut (g : Ground α P) (p : P) (offset : α) : List α → List P
  | [] => []
  | length :: lengths => g.part p offset length :: g.cut p (offset + length) lengths

def places (g : Ground α P) (env : Env α) (items : List (Item α σ)) : Option P → List P
  | none => []
  | some p =>
    match allocate env items (g.extent p) with
    | .error _ => []
    | .ok lengths => g.cut p 0 lengths

theorem places_of_allocate {g : Ground α P} {env : Env α} {items : List (Item α σ)} {p : P}
    {lengths : List α} (ha : allocate env items (g.extent p) = .ok lengths) :
    g.places env items (some p) = g.cut p 0 lengths := by
  rw [places, ha]

end Ground

section Visits
variable (g : Ground α P) (env : Env α)

mutual

/-- The items in an item that is laid over a place, each with its own place, in the order of `preorder`. -/
def Item.visits (place : Option P) : Item α σ → List (Visit α σ P)
  | .step size s => [⟨.step size s, place⟩]
  | .nested items repeats => ⟨.nested items repeats, place⟩ :: visitsOf items (g.places env items place)

def visitsOf : List (Item α σ) → List P → List (Visit α σ P)
  | [], _ => []
  | i :: is, places => i.visits places.head? ++ visitsOf is places.tail

end

def Pattern.visits (p : Pattern α σ) (place : P) : List (Visit α σ P) :=
  p.toItem.visits g env (some place)

def Visit.error? (v : Visit α σ P) : Option Error :=
  match v.item, v.place with
  | .nested items _, some p =>
    match allocate env items (g.extent p) with
    | .error err => some err
    | .ok _ => none
  | _, _ => none

mutual

theorem Item.map_item_visits (place : Option P) (i : Item α σ) :
    (i.visits g env place).map (·.item) = i.preorder := by
  match i with
  | .step _ _ => rfl
  | .nested items _ => rw [Item.visits, Item.preorder, List.map_cons, map_item_visitsOf]

theorem map_item_visitsOf (items : List (Item α σ)) (places : List P) :
    (visitsOf g env items places).map (·.item) = preorderOf items := by
  match items with
  | [] => rfl
  | i :: is => rw [visitsOf, preorderOf, List.map_append, Item.map_item_visits, map_item_visitsOf]

end

theorem Pattern.item_mem_preorder {g : Ground α P} {env : Env α} {p : Pattern α σ} {place : P}
    {v : Visit α σ P} (hv : v ∈ p.visits g env place) : v.item ∈ p.toItem.preorder := by
  rw [← Item.map_item_visits g env (some place)]
  exact List.mem_map_of_mem hv

mutual

theorem Item.steps_visits (place : Option P) (i : Item α σ) :
    ((i.visits g env place).filterMap Visit.step?).map (·.1) = i.leaves := by
  match i with
  | .step _ _ => rfl
  | .nested items _ =>
    rw [Item.visits, Item.leaves]
    exact steps_visitsOf items _

theorem steps_visitsOf (items : List (Item α σ)) (places : List P) :
    ((visitsOf g env items places).filterMap Visit.step?).map (·.1) = leavesOf items := by
  match items with
  | [] => rfl
  | i :: is =>
    rw [visitsOf, leavesOf, List.filterMap_append, List.map_append, Item.steps_visits, steps_visitsOf]

end

end Visits

section Layout
variable (env : Env α) (axis : Axis)

mutual

/-- What one item makes of its piece, written behind branches that are there already. -/
def Item.layoutBehind (made : List (Branch α σ)) (piece : Shape α) : Item α σ → Layout α σ
  | .step _ s => ⟨made ++ [⟨s, piece⟩], none⟩
  | .nested items _ =>
    match allocate env items (piece.extent axis) with
    | .error e => ⟨made, some e⟩
    | .ok lengths => layoutFromBehind made piece 0 items lengths

def layoutFromBehind (made : List (Branch α σ)) (whole : Shape α) (offset : α) :
    List (Item α σ) → List α → Layout α σ
  | i :: is, length :: lengths =>
    match i.layoutBehind made (whole.slice axis offset length) with
    | ⟨more, none⟩ => layoutFromBehind more whole (offset + length) is lengths
    | ⟨more, some e⟩ => ⟨more, some e⟩
  | _, _ => ⟨made, none⟩

end

mutual

theorem Item.layoutBehind_eq (made : List (Branch α σ)) (piece : Shape α) (i : Item α σ) :
    i.layoutBehind env axis made piece =
      ⟨made ++ (i.layout env axis piece).branches, (i.layout env axis piece).failure⟩ := by
  match i with
  | .step _ s => rfl
  | .nested items _ =>
    rw [Item.layoutBehind, Item.layout]
    cases allocate env items (piece.extent axis) with
    | error e => exact congrArg (Layout.mk · (some e)) (List.append_nil made).symm
    | ok lengths => exact layoutFromBehind_eq made piece 0 items lengths

theorem layoutFromBehind_eq (made : List (Branch α σ)) (whole : Shape α) (offset : α)
    (items : List (Item α σ)) (lengths : List α) :
    layoutFromBehind env axis made whole offset items lengths =
      ⟨made ++ (layoutFrom env axis whole offset items lengths).branches,
        (layoutFrom env axis whole offset items lengths).failure⟩ := by
  match items, lengths with
  | [], _ =>
    simp only [layoutFromBehind, layoutFrom]
    exact congrArg (Layout.mk · none) (List.append_nil made).symm
  | _ :: _, [] =>
    simp only [layoutFromBehind, layoutFrom]
    exact congrArg (Layout.mk · none) (List.append_nil made).symm
  | i :: is, length :: lengths =>
    rw [layoutFromBehind, Item.layoutBehind_eq, layoutFrom]
    rcases i.layout env axis (whole.slice axis offset length) with ⟨bs, _ | e⟩
    · simp only [layoutFromBehind_eq (made ++ bs), List.append_assoc]
      rfl
    · rfl

end

def Pattern.layoutBehind (p : Pattern α σ) (made : List (Branch α σ)) (whole : Shape α) : Layout α σ :=
  p.toItem.layoutBehind env axis made whole

end Layout

/-- The layout made on a way through visits. A step makes a branch of its place; a pattern that cannot
be shared out over its place breaks off, whatever comes after it. -/
inductive Lays (env : Env α) (axis : Axis) : List (Visit α σ (Shape α)) → Layout α σ → Prop
  | done : Lays env axis [] .empty
  | step {size s piece vs l} : Lays env axis vs l →
      Lays env axis (⟨.step size s, some piece⟩ :: vs) (.single ⟨s, piece⟩ ++ l)
  | pattern {items repeats piece lengths vs l} :
      allocate env items (piece.extent axis) = .ok lengths → Lays env axis vs l →
      Lays env axis (⟨.nested items repeats, some piece⟩ :: vs) l
  | broken {items repeats piece err vs} : allocate env items (piece.extent axis) = .error err →
      Lays env axis (⟨.nested items repeats, some piece⟩ :: vs) (.broken err)

def Layout.steps (l : Layout α σ) : List (σ × Option (Shape α)) :=
  l.branches.map fun b => (b.successor, some b.shape)

namespace Lays
variable {env : Env α} {axis : Axis} {vs ws : List (Visit α σ (Shape α))} {l m : Layout α σ}

theorem append (hl : Lays env axis vs l) (hm : l.failure = none → Lays env axis ws m) :
    Lays env axis (vs ++ ws) (l ++ m) := by
  induction hl with
  | done => exact hm rfl
  | step _ ih =>
    rw [Layout.append_assoc]
    exact .step (ih hm)
  | pattern ha _ ih => exact .pattern ha (ih hm)
  | broken ha => exact .broken ha

theorem failure_eq_none_iff (h : Lays env axis vs l) :
    l.failure = none ↔ ∀ v ∈ vs, v.error? (Shape.ground axis) env = none := by
  induction h with
  | done => simp [Layout.empty]
  | step _ ih =>
    rw [List.forall_mem_cons, ← ih]
    exact (and_iff_right rfl).symm
  | pattern ha _ ih =>
    rw [List.forall_mem_cons, ← ih, Visit.error?, Shape.ground]
    simp [ha]
  | broken ha =>
    rw [List.forall_mem_cons, Visit.error?, Shape.ground]
    simp [ha, Layout.broken]

theorem steps_eq (h : Lays env axis vs l) (hl : l.failure = none) : l.steps = vs.filterMap Visit.step? := by
  induction h with
  | done => rfl
  | step _ ih => exact congrArg (_ :: ·) (ih hl)
  | pattern _ _ ih => exact ih hl
  | broken _ => cases hl

theorem of_first_error {before after : List (Visit α σ (Shape α))} {v : Visit α σ (Shape α)} {err : Error}
    (h : Lays env axis (before ++ v :: after) l)
    (hbefore : ∀ u ∈ before, u.error? (Shape.ground axis) env = none)
    (hv : v.error? (Shape.ground axis) env = some err) :
    l.failure = some err ∧ l.steps = before.filterMap Visit.step? := by
  induction before generalizing l with
  | nil =>
    cases h with
    | step _ => cases hv
    | pattern ha _ => simp [Visit.error?, Shape.ground, ha] at hv
    | broken ha =>
      simp only [Visit.error?, Shape.ground, ha, Option.some.injEq] at hv
      exact ⟨congrArg some hv, rfl⟩
  | cons u us ih =>
    obtain ⟨hu, hus⟩ := List.forall_mem_cons.mp hbefore
    cases h with
    | step h =>
      obtain ⟨hfailure, hsteps⟩ := ih h hus
      exact ⟨hfailure, congrArg (_ :: ·) hsteps⟩
    | pattern _ h => exact ih h hus
    | broken ha => simp [Visit.error?, Shape.ground, ha] at hu

end Lays

section Layout
variable (env : Env α) (axis : Axis)

mutual

theorem Item.lays (piece : Shape α) (i : Item α σ) :
    Lays env axis (i.visits (Shape.ground axis) env (some piece)) (i.layout env axis piece) := by
  match i with
  | .step _ s =>
    rw [Item.layout]
    exact .step .done
  | .nested items _ =>
    rw [Item.layout, Item.visits, Ground.places, Shape.ground]
    cases ha : allocate env items (piece.extent axis) with
    | error e => exact .broken ha
    | ok lengths => exact .pattern ha (lays_layoutFrom piece 0 items lengths (length_allocate ha))

theorem lays_layoutFrom (whole : Shape α) (offset : α) (items : List (Item α σ)) (lengths : List α)
    (hl : lengths.length = items.length) :
    Lays env axis (visitsOf (Shape.ground axis) env items ((Shape.ground axis).cut whole offset lengths))
      (layoutFrom env axis whole offset items lengths) := by
  match items, lengths with
  | [], _ =>
    simp only [layoutFrom]
    exact .done
  | _ :: _, [] => cases hl
  | i :: is, length :: lengths =>
    rw [layoutFrom, Ground.cut, visitsOf]
    exact (Item.lays (whole.slice axis offset length) i).append fun _ =>
      lays_layoutFrom whole (offset + length) is lengths (Nat.succ.inj hl)

end

/-- A layout meets the items of a pattern in preorder and only adds to the branches that are there. It
fails just if some pattern cannot be shared out over the place given to it. Otherwise it makes a
branch for each step, from left to right; but the first pattern that cannot be shared out breaks it off,
with the error of this pattern and the branches of the steps met before. -/
theorem Pattern.layout_stops_in_preorder (p : Pattern α σ) (whole : Shape α) :
    let layout := p.layout env axis whole
    let visits := p.visits (Shape.ground axis) env whole
    visits.map (·.item) = p.toItem.preorder ∧
    (visits.filterMap Visit.step?).map (·.1) = leavesOf p.items ∧
    (∀ made, p.layoutBehind env axis made whole = ⟨made ++ layout.branches, layout.failure⟩) ∧
    (layout.failure = none ↔ ∀ v ∈ visits, v.error? (Shape.ground axis) env = none) ∧
    (layout.failure = none →
      layout.steps = visits.filterMap Visit.step? ∧
      layout.branches.map (·.successor) = leavesOf p.items) ∧
    ∀ before v after err, visits = before ++ v :: after →
      (∀ u ∈ before, u.error? (Shape.ground axis) env = none) →
      v.error? (Shape.ground axis) env = some err →
      layout.failure = some err ∧ layout.steps = before.filterMap Visit.step? := by
  intro layout visits
  have hlays : Lays env axis visits layout := Item.lays env axis whole p.toItem
  refine ⟨Item.map_item_visits _ env (some whole) p.toItem, Item.steps_visits _ env (some whole) p.toItem,
    fun made => Item.layoutBehind_eq env axis made whole p.toItem, hlays.failure_eq_none_iff,
    fun hdone => ⟨hlays.steps_eq hdone, Item.layout_successors axis whole p.toItem hdone⟩, ?_⟩
  intro before v after err hvisits hbefore hv
  exact (hvisits ▸ hlays).of_first_error hbefore hv

end Layout

/-- An arcade of two arches, with niches of some weight between them. -/
def arcade (weight : ℚ) : Pattern ℚ String :=
  let number (x : ℚ) : Expr ℚ := .constant x .plain
  .ofItems
    [.step (.absolute (number 1)) "pier",
      .nested [.step (.relative (number 2)) "arch",
        .nested [.step (.relative (number weight)) "niche"] false,
        .step (.relative (number 1)) "arch"] false,
      .step (.relative (number 1)) "pier"]

theorem Pattern.layout_stops_in_preorder_arcade :
    let env : Env ℚ := ⟨fun _ => none, none⟩
    let wall : Shape ℚ := .withSize .unitBox ⟨9, 3, 1⟩
    let visits := (arcade 0).visits (Shape.ground .x) env wall
    let layout := (arcade 0).layout env .x wall
    ((arcade 1).layout env .x wall).failure = none ∧
    ((arcade 1).layout env .x wall).branches.map (·.successor) =
      ["pier", "arch", "niche", "arch", "pier"] ∧
    (∃ before v after, visits = before ++ v :: after ∧
      (∀ u ∈ before, u.error? (Shape.ground .x) env = none) ∧
      v.error? (Shape.ground .x) env = some (.divisionByZero "split")) ∧
    layout.failure = some (.divisionByZero "split") ∧ layout.steps.map (·.1) = ["pier", "arch"] := by
  intro env wall visits layout
  have hdone : ((arcade 1).layout env .x wall).failure = none := by decide +kernel
  obtain ⟨-, -, -, -, hsteps, -⟩ := layout_stops_in_preorder env .x (arcade 1) wall
  have hvisits : visits = visits.take 4 ++ visits.get ⟨4, by decide +kernel⟩ :: visits.drop 5 := by
    rw [List.get_eq_getElem, List.getElem_cons_drop, List.take_append_drop]
  have hbefore : ∀ u ∈ visits.take 4, u.error? (Shape.ground .x) env = none := by decide +kernel
  have hv : (visits.get ⟨4, by decide +kernel⟩).error? (Shape.ground .x) env =
      some (.divisionByZero "split") := by decide +kernel
  obtain ⟨-, -, -, -, -, hbroken⟩ := layout_stops_in_preorder env .x (arcade 0) wall
  obtain ⟨hfailure, hleft⟩ := hbroken _ _ _ _ hvisits hbefore hv
  have hsuccessors : ((visits.take 4).filterMap Visit.step?).map (·.1) = ["pier", "arch"] := by
    decide +kernel
  exact ⟨hdone, (hsteps hdone).2, ⟨_, _, _, hvisits, hbefore, hv⟩, hfailure, hleft ▸ hsuccessors⟩

end ShapeGrammar
