import ShapeGrammar.Proofs.Sharing
import ShapeGrammar.Proofs.Ending
import ShapeGrammar.Proofs.Inheritance
import ShapeGrammar.Proofs.Placement

/-! Volume. Slices of a box keep its extents across the axis, so in exact arithmetic boxes that are cut
into lengths that add up lose nothing. A grammar that only moves, turns and splits keeps the volume
of what is finished and what is still open together, as long as every pattern fills the extent that
it is laid over. -/
namespace ShapeGrammar
variable {α σ : Type}

section Definitions
variable [Scalar α]

mutual

/-- Whether every pattern laid out in this item over an extent fills it: something in it takes a share
of the extent, and no length is negative. -/
def Item.fills (env : Env α) (extent : α) : Item α σ → Bool
  | .step _ _ => true
  | .nested items _ =>
    items.any Item.shares && match allocate env items extent with
      | .error _ => true
      | .ok lengths => lengths.all (fun l => decide (0 ≤ l)) && fillsFrom env items lengths

def fillsFrom (env : Env α) : List (Item α σ) → List α → Bool
  | i :: is, length :: lengths => i.fills env length && fillsFrom env is lengths
  | _, _ => true

end

namespace Operation

def fills (env : Env α) (h : Shape α) : Operation α σ → Bool
  | split axis _ p => p.toItem.fills env (h.extent axis)
  | _ => true

/-- Whether an operation moves or turns a shape or cuts it up along an axis. -/
def dissects : Operation α σ → Bool
  | translate _ | rotate _ | split _ _ _ => true
  | scale _ | extrude _ _ | componentSplit _ _ => false

end Operation

/-- Whether all patterns that the next step lays out fill what they are laid over. -/
def Grammar.fills (g : Grammar α) (a : State α) : Bool :=
  match a.agenda.next?, a.scene.stack with
  | some (.operation op, _), h :: _ => op.fills ⟨g.attr?, some h⟩ h
  | _, _ => true

def measures (hs : List (Shape α)) : α := (hs.map Shape.measure).sum

def Scene.measure (c : Scene α) : α := measures c.finished.toList + measures c.stack

end Definitions

variable [ExactScalar α]

namespace Vec3

def volume (v : Vec3 α) : α := |v.x| * |v.y| * |v.z|

/-- The area of a cut across an axis. -/
def across (v : Vec3 α) : Axis → α
  | .x => |v.y| * |v.z|
  | .y => |v.x| * |v.z|
  | .z => |v.x| * |v.y|

theorem volume_eq (v : Vec3 α) (a : Axis) : v.volume = |v.get a| * v.across a := by
  cases a <;> simp only [volume, get, across] <;> ring

theorem volume_set (v : Vec3 α) (a : Axis) (c : α) : (v.set a c).volume = |c| * v.across a := by
  cases a <;> simp only [volume, set, across] <;> ring

end Vec3

namespace Shape

theorem measure_box {h : Shape α} (hk : h.kind = .box) : h.measure = h.size.volume := by
  simp only [measure, primitive, hk, Primitive.measure, Vec3.map, Vec3.volume, Scalar.abs_eq,
    Scalar.two_eq, Scalar.ofNat_eq]
  ring

theorem measure_slice {h : Shape α} (hk : h.kind = .box) (axis : Axis) (offset length : α) :
    (h.slice axis offset length).measure = |length| * h.size.across axis := by
  rw [measure_box (h := h.slice axis offset length) hk]
  exact Vec3.volume_set h.size axis length

end Shape

@[simp] theorem measures_nil : measures ([] : List (Shape α)) = 0 := rfl

@[simp] theorem measures_singleton (h : Shape α) : measures [h] = h.measure := List.sum_singleton

@[simp] theorem measures_append (hs ks : List (Shape α)) :
    measures (hs ++ ks) = measures hs + measures ks := by
  rw [measures, List.map_append, List.sum_append]
  rfl

theorem measures_cons (h : Shape α) (hs : List (Shape α)) : measures (h :: hs) = h.measure + measures hs :=
  List.sum_cons

section Layout
variable (env : Env α) (axis : Axis)

mutual

theorem Item.measures_layout {piece : Shape α} (hk : piece.kind = .box) (i : Item α σ)
    (hfills : i.fills env (piece.extent axis) = true) (h : (i.layout env axis piece).failure = none) :
    measures ((i.layout env axis piece).branches.map (·.shape)) = piece.measure := by
  match i with
  | .step _ s =>
    rw [Item.layout]
    exact measures_singleton piece
  | .nested items _ =>
    rw [Item.fills, Bool.and_eq_true] at hfills
    obtain ⟨hshare, hfills⟩ := hfills
    rw [Item.layout] at h ⊢
    cases ha : allocate env items (piece.extent axis) with
    | error e =>
      rw [ha] at h
      cases h
    | ok lengths =>
      simp only [ha, Bool.and_eq_true, List.all_eq_true, decide_eq_true_eq] at h hfills ⊢
      obtain ⟨hnonneg, hfrom⟩ := hfills
      -- lengths that are not negative add up to the extent, so this is not negative either
      have hsum : lengths.sum = piece.size.get axis := sum_allocate ha (List.any_eq_true.mp hshare)
      have hextent : 0 ≤ piece.size.get axis := hsum ▸ List.sum_nonneg hnonneg
      rw [measures_layoutFrom hk 0 items lengths (length_allocate ha) hnonneg hfrom h, hsum,
        Shape.measure_box hk, Vec3.volume_eq _ axis, abs_of_nonneg hextent]

theorem measures_layoutFrom {whole : Shape α} (hk : whole.kind = .box) (offset : α)
    (items : List (Item α σ)) (lengths : List α) (hl : lengths.length = items.length)
    (hnonneg : ∀ l ∈ lengths, 0 ≤ l) (hfills : fillsFrom env items lengths = true)
    (h : (layoutFrom env axis whole offset items lengths).failure = none) :
    measures ((layoutFrom env axis whole offset items lengths).branches.map (·.shape)) =
      lengths.sum * whole.size.across axis := by
  match items, lengths with
  | [], [] => simp [layoutFrom, Layout.empty]
  | [], _ :: _ => cases hl
  | _ :: _, [] => cases hl
  | i :: is, length :: lengths =>
    obtain ⟨hlength, hlengths⟩ := List.forall_mem_cons.mp hnonneg
    rw [fillsFrom, Bool.and_eq_true] at hfills
    rw [layoutFrom, Layout.failure_append_eq_none] at h
    have hslice : (whole.slice axis offset length).kind = .box := hk
    have hpiece := Item.measures_layout hslice i (by rw [Shape.extent_slice]; exact hfills.1) h.1
    have hrest := measures_layoutFrom hk _ is lengths (Nat.succ.inj hl) hlengths hfills.2 h.2
    rw [layoutFrom, Layout.branches_append h.1, List.map_append, measures_append, hpiece, hrest,
      Shape.measure_slice hk, abs_of_nonneg hlength, List.sum_cons, add_mul]

end

end Layout

/-- An operation that dissects a box and fills it makes boxes that measure as much together. -/
theorem Operation.measures_apply {env : Env α} {op : Operation α σ} {h : Shape α} {e : Effect α σ}
    (hop : op.dissects = true) (hk : h.kind = .box) (hfills : op.fills env h = true)
    (he : op.apply env h = .ok e) : measures e.shapes = h.measure := by
  cases applies he with
  | translate _ => exact measures_singleton _
  | rotate _ => exact measures_singleton _
  | scale _ | extrude _ _ | componentSplit _ _ => cases hop
  | @split axis _ p hfailure => exact Item.measures_layout env axis hk p.toItem hfills hfailure

theorem Operation.kind_apply {env : Env α} {op : Operation α σ} {h : Shape α} {e : Effect α σ}
    (hop : op.dissects = true) (he : op.apply env h = .ok e) : ∀ k ∈ e.shapes, k.kind = h.kind := by
  cases applies he with
  | translate _ => exact List.forall_mem_singleton.mpr rfl
  | rotate _ => exact List.forall_mem_singleton.mpr rfl
  | scale _ | extrude _ _ | componentSplit _ _ => cases hop
  | @split axis _ p _ => exact List.forall_mem_map.mpr (p.toItem.kind_layout env axis h)

namespace Grammar
variable {g : Grammar α}

theorem inherits_box (hg : g.UsesOnly (·.dissects = true)) :
    g.Inherits (Successor.UsesOnly (·.dissects = true)) (·.kind = .box) :=
  hg.inherits fun _ hop _ _ hh he k hk => (Operation.kind_apply hop he k hk).trans hh

variable [Numeral α] {a b : State α} {k : Nat}

theorem measure_of_step (ha : a.All (Successor.UsesOnly (·.dissects = true)) (·.kind = .box))
    (hfills : g.fills a = true) (hs : g.step a = some (.ok b)) : b.scene.measure = a.scene.measure := by
  obtain ⟨s, rest, hn, hp⟩ := step_cases hs
  rcases perform_cases hp with ⟨body, -, rfl⟩ | ⟨-, ys, d, hact, rfl⟩
  · rfl
  · obtain ⟨h, below, o, hstack, ho, -, hturn⟩ := exists_treat_of_act hact
    have hkeeps : measures o.finished + measures o.opened = h.measure := by
      cases s with
      | symbol name =>
        cases ho
        simp
      | operation op =>
        obtain ⟨e, he, rfl⟩ := treat_operation.mp ho
        have hop : (Successor.operation op).UsesOnly (·.dissects = true) :=
          ha.agenda _ (Agenda.mem_of_next? hn)
        have hbox : h.kind = .box := ha.scene.stack h (by rw [hstack]; exact List.mem_cons_self)
        rw [fills, hn, hstack] at hfills
        simpa using Operation.measures_apply (Successor.usesOnly_operation.mp hop).1 hbox hfills he
    rw [Scene.measure, Scene.measure, hturn.finished, hturn.stack, hstack, measures_append,
      measures_append, measures_cons, ← hkeeps]
    ring

theorem Exec.measure_eq (hg : g.UsesOnly (·.dissects = true)) (hx : g.Exec a k b)
    (ha : a.All (Successor.UsesOnly (·.dissects = true)) (·.kind = .box))
    (hfills : ∀ j c, g.Exec a j c → g.fills c = true) : b.scene.measure = a.scene.measure := by
  induction hx with
  | refl => rfl
  | @succ a c b k hs ht ih =>
    have hc := ih ((inherits_box hg).step ha hs) fun j x hx => hfills (j + 1) x (.succ hs hx)
    rw [hc, measure_of_step ha (hfills 0 a (.refl a)) hs]

/-- A derivation from a box by a grammar that only moves, turns and splits, in which every pattern that
is laid out fills what it is laid over, loses no volume: the finished shapes and those left on the
stack measure together what the axiom does. -/
theorem splitting_conserves_volume (hg : g.UsesOnly (·.dissects = true)) (ax : Axiom α)
    (hbox : ax.shape.kind = .box) {config : Config} {fuel : Nat} {d : Derivation α}
    (hd : g.derive? config ax fuel = some (.ok d))
    (hfills : ∀ k st, g.Exec (.start ax config.recording) k st → g.fills st = true) :
    ∃ c, g.advance (config.limit.getD fuel) 0 (.start ax config.recording) = .finished c d.steps ∧
      d.finished = c.finished.toList ∧
      (d.finished.map Shape.measure).sum + (c.stack.map Shape.measure).sum = ax.shape.measure := by
  obtain ⟨c, hadv, hdc⟩ := derive?_eq_ok hd
  obtain ⟨k, -, -, hx⟩ := advance_eq_finished.mp hadv
  have hstart : (State.start ax config.recording).All (Successor.UsesOnly (·.dissects = true))
      (·.kind = .box) :=
    .start (Successor.usesOnly_symbol ax.symbol) hbox config.recording
  have hmeasure : c.measure = (State.start ax config.recording).scene.measure :=
    hx.measure_eq hg hstart hfills
  refine ⟨c, hadv, by rw [hdc], ?_⟩
  rw [hdc]
  refine hmeasure.trans ?_
  simp [Scene.measure, State.start, Scene.empty]

/-- A parcel with a path of a fixed width, beds across what is left, and a pond that is never dug. -/
def parcel : Grammar ℚ :=
  let number (x : ℚ) : Expr ℚ := .constant x .plain
  let beds : Operation ℚ (Successor ℚ) := .split .y none (.ofItems
    [.step (.relative (number 2)) (.symbol "bed"), .step (.relative (number 1)) (.symbol "bed")])
  { statements :=
      [.rule ⟨"parcel", [.operation (.rotate ⟨number 0, number 30, number 0⟩),
          .operation (.translate ⟨number 1, number 0, number 2⟩),
          .operation (.split .x none (.ofItems
            [.step (.absolute (number (1 / 4))) (.symbol "path"),
              .nested [.step (.relative (number 1)) (.operation beds),
                .step (.absolute (number (1 / 8))) (.symbol "path")] false,
              .step (.relative (number 1)) (.symbol "pond")]))]⟩,
        .rule ⟨"pond", []⟩] }

theorem splitting_conserves_volume_parcel :
    let lot : Shape ℚ := .withSize .unitBox ⟨4, 2, 3⟩
    lot.kind = .box ∧ lot.measure = 24 ∧ parcel.UsesOnly (·.dissects = true) ∧
    (∀ k st, parcel.Exec (.start ⟨"parcel", lot⟩ false) k st → parcel.fills st = true) ∧
    ∃ d c, parcel.derive? ⟨none, false⟩ ⟨"parcel", lot⟩ 12 = some (.ok d) ∧ d.finished.length = 4 ∧
      parcel.advance 12 0 (.start ⟨"parcel", lot⟩ false) = .finished c d.steps ∧
      (d.finished.map Shape.measure).sum + (c.stack.map Shape.measure).sum = lot.measure := by
  intro lot
  have huses : parcel.UsesOnly (·.dissects = true) := by
    simp [UsesOnly, parcel, rules, Statement.rule?, Operation.parts, Operation.dissects, leavesOf,
      Item.leaves, Pattern.ofItems]
  have hfills (k : Nat) (st : State ℚ) (hx : parcel.Exec (.start ⟨"parcel", lot⟩ false) k st) :
      parcel.fills st = true :=
    hx.of_always (n := 13) (by decide +kernel)
  obtain ⟨d, hd, hlength⟩ := exists_derive?_of_map parcel ⟨none, false⟩ ⟨"parcel", lot⟩ 12
    (·.finished.length) 4 (by decide +kernel)
  obtain ⟨c, hadv, -, hmeasure⟩ := splitting_conserves_volume huses ⟨"parcel", lot⟩ rfl hd hfills
  exact ⟨rfl, by decide +kernel, huses, hfills, d, c, hd, hlength, hadv, hmeasure⟩

end Grammar
end ShapeGrammar
