import ShapeGrammar.Proofs.Failure

/-! What operations make of a shape. Four of them replace it by one shape; the two kinds of split
divide it into branches, whose successors are among those written in the operation. -/
namespace ShapeGrammar
variable {α β σ τ : Type}

mutual

/-- The successors of the steps in an item, in order. -/
def Item.leaves : Item α σ → List σ
  | .step _ s => [s]
  | .nested items _ => leavesOf items

def leavesOf : List (Item α σ) → List σ
  | [] => []
  | i :: is => i.leaves ++ leavesOf is

end

namespace Operation

def reshapes : Operation α σ → Bool
  | translate _ | rotate _ | scale _ | extrude _ _ => true
  | componentSplit _ _ | split _ _ _ => false

/-- The successors written in an operation. -/
def parts : Operation α σ → List σ
  | translate _ | rotate _ | scale _ | extrude _ _ => []
  | componentSplit _ selections => selections.map (·.successor)
  | split _ _ pattern => leavesOf pattern.items

end Operation

namespace Layout

theorem failure_append_eq_none {l m : Layout α σ} :
    (l ++ m).failure = none ↔ l.failure = none ∧ m.failure = none := by
  rcases l with ⟨bs, _ | e⟩
  · exact ⟨fun h => ⟨rfl, h⟩, fun h => h.2⟩
  · exact ⟨fun h => (by cases h), fun h => (by cases h.1)⟩

theorem branches_append {l : Layout α σ} (h : l.failure = none) (m : Layout α σ) :
    (l ++ m).branches = l.branches ++ m.branches := by
  rcases l with ⟨bs, _ | e⟩
  · rfl
  · cases h

theorem mem_branches_append {l m : Layout α σ} {b : Branch α σ} (hb : b ∈ (l ++ m).branches) :
    b ∈ l.branches ∨ b ∈ m.branches := by
  rcases l with ⟨bs, _ | e⟩
  · exact List.mem_append.mp hb
  · exact .inl hb

def each (f : Branch α σ → Branch β τ) (l : Layout α σ) : Layout β τ := ⟨l.branches.map f, l.failure⟩

theorem each_append (f : Branch α σ → Branch β τ) (l m : Layout α σ) :
    (l ++ m).each f = l.each f ++ m.each f := by
  rcases l with ⟨bs, _ | e⟩
  · exact congrArg (Layout.mk · m.failure) List.map_append
  · rfl

theorem complete_each (f : Branch α σ → Branch β τ) (l : Layout α σ) :
    (l.each f).complete = l.complete.map (List.map f) := by
  rcases l with ⟨bs, _ | e⟩ <;> rfl

theorem complete_eq_ok {l : Layout α σ} {bs : List (Branch α σ)} :
    l.complete = .ok bs ↔ l.failure = none ∧ l.branches = bs := by
  rcases l with ⟨cs, _ | e⟩ <;> simp [complete]

end Layout

variable [Scalar α] {env : Env α}

theorem length_demands {items : List (Item α σ)} {ds : List (Demand α)} (h : demands env items = .ok ds) :
    ds.length = items.length := by
  induction items generalizing ds with
  | nil => cases h; rfl
  | cons i is ih =>
    rw [demands, bind_eq_ok] at h
    obtain ⟨d, -, h⟩ := h
    rw [bind_eq_ok] at h
    obtain ⟨ds', hds, h⟩ := h
    cases h
    rw [List.length_cons, List.length_cons, ih hds]

theorem length_allocate {items : List (Item α σ)} {extent : α} {lengths : List α}
    (h : allocate env items extent = .ok lengths) : lengths.length = items.length := by
  rw [allocate, bind_eq_ok] at h
  obtain ⟨ds, hds, h⟩ := h
  rw [length_distribute h, length_demands hds]

mutual

theorem Item.layout_successors (axis : Axis) (piece : Shape α) (i : Item α σ)
    (h : (i.layout env axis piece).failure = none) :
    (i.layout env axis piece).branches.map (·.successor) = i.leaves := by
  match i with
  | .step _ s => rfl
  | .nested items _ =>
    rw [Item.layout] at h ⊢
    split at h
    · cases h
    · next lengths ha =>
      rw [Item.leaves]
      exact layoutFrom_successors axis piece 0 items lengths (length_allocate ha) h

theorem layoutFrom_successors (axis : Axis) (whole : Shape α) (offset : α) (items : List (Item α σ))
    (lengths : List α) (hl : lengths.length = items.length)
    (h : (layoutFrom env axis whole offset items lengths).failure = none) :
    (layoutFrom env axis whole offset items lengths).branches.map (·.successor) = leavesOf items := by
  match items, lengths with
  | [], _ => simp [layoutFrom, Layout.empty, leavesOf]
  | _ :: _, [] => cases hl
  | i :: is, length :: lengths =>
    rw [layoutFrom, Layout.failure_append_eq_none] at h
    rw [layoutFrom, Layout.branches_append h.1, List.map_append, leavesOf,
      Item.layout_successors axis _ i h.1,
      layoutFrom_successors axis whole _ is lengths (Nat.succ.inj hl) h.2]

end

theorem assign_successors {parent : Shape α} {ks : List (Selection σ)} {pool : List (Shape α)}
    {bs : List (Branch α σ)} (h : assign parent ks pool = .ok bs) :
    ∀ b ∈ bs, b.successor ∈ ks.map (·.successor) := by
  induction ks generalizing pool bs with
  | nil => cases h; simp
  | cons k ks ih =>
    rw [assign, bind_eq_ok] at h
    obtain ⟨⟨ins, outs⟩, -, h⟩ := h
    rw [bind_eq_ok] at h
    obtain ⟨rest, hrest, h⟩ := h
    cases h
    intro b hb
    rw [List.map_cons, List.mem_cons]
    rcases List.mem_append.mp hb with hb | hb
    · obtain ⟨c, -, rfl⟩ := List.mem_map.mp hb
      exact .inl rfl
    · exact .inr (ih hrest b hb)

namespace Operation

/-- What an operation that succeeds makes of a shape, form by form. -/
inductive Applies (env : Env α) (h : Shape α) : Operation α σ → Effect α σ → Prop
  | translate {v w} : v.eval env = .ok w →
      Applies env h (.translate v) (.replaced (h.withTransform (h.transform.translate w)))
  | rotate {v w} : v.eval env = .ok w →
      Applies env h (.rotate v) (.replaced (h.withTransform (h.transform.rotate (.ofPitchYawRoll w))))
  | scale {v w} : v.eval env = .ok w → Applies env h (.scale v) (.replaced (h.withSize w))
  | extrude {axis d x k} : d.eval env = .ok x → h.extrude (axis.getD .z) x = .ok k →
      Applies env h (.extrude axis d) (.replaced k)
  | componentSplit {c ks pool bs} : h.components c = .ok pool → assign h ks pool = .ok bs →
      Applies env h (.componentSplit c ks) (.divided bs)
  | split {axis adjustment} {p : Pattern α σ} : (p.layout env axis h).failure = none →
      Applies env h (.split axis adjustment p) (.divided (p.layout env axis h).branches)

variable {op : Operation α σ} {h : Shape α} {e : Effect α σ}

theorem applies (he : op.apply env h = .ok e) : op.Applies env h e := by
  cases op with
  | translate v | rotate v | scale v =>
    rw [apply, bind_eq_ok] at he
    obtain ⟨w, hw, he⟩ := he
    cases he
    constructor
    exact hw
  | extrude axis d =>
    rw [apply, bind_eq_ok] at he
    obtain ⟨x, hx, he⟩ := he
    rw [bind_eq_ok] at he
    obtain ⟨k, hk, he⟩ := he
    cases he
    exact .extrude hx hk
  | componentSplit c ks =>
    rw [apply, bind_eq_ok] at he
    obtain ⟨pool, hpool, he⟩ := he
    rw [bind_eq_ok] at he
    obtain ⟨bs, hbs, he⟩ := he
    cases he
    exact .componentSplit hpool hbs
  | split axis adjustment p =>
    rw [apply, bind_eq_ok] at he
    obtain ⟨bs, hbs, he⟩ := he
    cases he
    obtain ⟨hf, rfl⟩ := Layout.complete_eq_ok.mp hbs
    exact .split hf

theorem apply_replaced (hr : op.reshapes = true) (he : op.apply env h = .ok e) :
    ∃ k, e = .replaced k := by
  cases applies he with
  | translate | rotate | scale | extrude => exact ⟨_, rfl⟩
  | componentSplit | split => cases hr

theorem apply_divided (hr : op.reshapes = false) (he : op.apply env h = .ok e) :
    ∃ bs, e = .divided bs ∧ ∀ b ∈ bs, b.successor ∈ op.parts := by
  cases applies he with
  | translate | rotate | scale | extrude => cases hr
  | componentSplit hpool hbs => exact ⟨_, rfl, assign_successors hbs⟩
  | @split axis adjustment p hf =>
    have hleaves : _ = leavesOf p.items := Item.layout_successors axis h p.toItem hf
    refine ⟨_, rfl, fun b hb => ?_⟩
    rw [parts, ← hleaves]
    exact List.mem_map_of_mem hb

theorem apply_successors (he : op.apply env h = .ok e) : ∀ s ∈ e.successors, s ∈ op.parts := by
  cases hr : op.reshapes with
  | true =>
    obtain ⟨k, rfl⟩ := apply_replaced hr he
    simp [Effect.successors]
  | false =>
    obtain ⟨bs, rfl, hbs⟩ := apply_divided hr he
    intro s hs
    obtain ⟨b, hb, rfl⟩ := List.mem_map.mp hs
    exact hbs b hb

end Operation
end ShapeGrammar
