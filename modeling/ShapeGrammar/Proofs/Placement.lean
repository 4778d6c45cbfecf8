import ShapeGrammar.Proofs.Branches

/-! Where operations put shapes. The frame of every shape that an operation makes is reached from the
frame of the shape it is applied to by moves and turns in the frame itself; what an operation does
to the size, the kind or the number of shapes has no part in it. -/
namespace ShapeGrammar
variable {α σ : Type}

theorem mem_of_sift {accepts : Shape α → Except Error Bool} {pool ins outs : List (Shape α)}
    (h : sift accepts pool = .ok (ins, outs)) : (∀ c ∈ ins, c ∈ pool) ∧ ∀ c ∈ outs, c ∈ pool := by
  induction pool generalizing ins outs with
  | nil =>
    cases h
    simp
  | cons c cs ih =>
    rw [sift, bind_eq_ok] at h
    obtain ⟨accepted, -, h⟩ := h
    rw [bind_eq_ok] at h
    obtain ⟨⟨ins', outs'⟩, hcs, h⟩ := h
    obtain ⟨hins, houts⟩ := ih hcs
    have hins' : ∀ k ∈ ins', k ∈ c :: cs := fun k hk => List.mem_cons_of_mem c (hins k hk)
    have houts' : ∀ k ∈ outs', k ∈ c :: cs := fun k hk => List.mem_cons_of_mem c (houts k hk)
    cases accepted with
    | true =>
      cases h
      exact ⟨List.forall_mem_cons.mpr ⟨List.mem_cons_self, hins'⟩, houts'⟩
    | false =>
      cases h
      exact ⟨hins', List.forall_mem_cons.mpr ⟨List.mem_cons_self, houts'⟩⟩

variable [Scalar α]

theorem mem_of_assign {parent : Shape α} {ks : List (Selection σ)} {pool : List (Shape α)}
    {bs : List (Branch α σ)} (h : assign parent ks pool = .ok bs) : ∀ b ∈ bs, b.shape ∈ pool := by
  induction ks generalizing pool bs with
  | nil =>
    cases h
    simp
  | cons k ks ih =>
    rw [assign, bind_eq_ok] at h
    obtain ⟨⟨ins, outs⟩, hsift, h⟩ := h
    rw [bind_eq_ok] at h
    obtain ⟨rest, hrest, h⟩ := h
    cases h
    obtain ⟨hins, houts⟩ := mem_of_sift hsift
    intro b hb
    rcases List.mem_append.mp hb with hb | hb
    · obtain ⟨c, hc, rfl⟩ := List.mem_map.mp hb
      exact hins c hc
    · exact houts _ (ih hrest b hb)

/-- The rotations that operations make use of. -/
inductive Rotation.Built : Rotation α → Prop
  | identity : Built .identity
  | aboutX (angle) : Built (.aboutX angle)
  | aboutY (angle) : Built (.aboutY angle)
  | ofPitchYawRoll (degrees) : Built (.ofPitchYawRoll degrees)

/-- The frames that are reached from a frame by moves and turns in the frame itself. -/
inductive Mat4.Reaches (m : Mat4 α) : Mat4 α → Prop
  | refl : Reaches m m
  | translate {n} (v) : Reaches m n → Reaches m (n.translate v)
  | rotate {n q} : q.Built → Reaches m n → Reaches m (n.rotate q)

theorem Mat4.Reaches.trans {m n k : Mat4 α} (hmn : m.Reaches n) (hnk : n.Reaches k) : m.Reaches k := by
  induction hnk with
  | refl => exact hmn
  | translate v _ ih => exact .translate v ih
  | rotate hq _ ih => exact .rotate hq ih

theorem Face.built_turn (f : Face) : (f.turn : Rotation α).Built := by
  cases f with
  | negY | posY => exact .aboutX _
  | posZ => exact .identity
  | negZ | posX | negX => exact .aboutY _

namespace Shape
variable {h : Shape α}

theorem reaches_components {c : Component} {ks : List (Shape α)} (hk : h.components c = .ok ks) :
    ∀ k ∈ ks, h.transform.Reaches k.transform := by
  cases hb : h.kind <;> cases c <;> simp only [components, hb, reduceCtorEq] at hk
  cases hk
  intro k hmem
  obtain ⟨f, -, rfl⟩ := List.mem_map.mp hmem
  exact .translate _ (.rotate f.built_turn .refl)

theorem reaches_extrude {axis : Axis} {d : α} {k : Shape α} (he : h.extrude axis d = .ok k) :
    h.transform.Reaches k.transform := by
  cases hb : h.kind <;> cases axis <;> simp only [extrude, hb, reduceCtorEq] at he
  cases he
  exact .translate _ (.rotate (.aboutX _) .refl)

theorem reaches_slice (h : Shape α) (axis : Axis) (offset length : α) :
    h.transform.Reaches (h.slice axis offset length).transform :=
  .translate _ .refl

end Shape

section Layout
variable {env : Env α} {axis : Axis} {P : Shape α → Prop}

mutual

theorem Item.forall_layout (hslice : ∀ k offset length, P k → P (k.slice axis offset length))
    {piece : Shape α} (hp : P piece) (i : Item α σ) : ∀ b ∈ (i.layout env axis piece).branches, P b.shape := by
  match i with
  | .step _ s =>
    rw [Item.layout]
    exact List.forall_mem_singleton.mpr hp
  | .nested items _ =>
    rw [Item.layout]
    split
    · exact List.forall_mem_nil _
    · next lengths _ => exact forall_layoutFrom hslice hp 0 items lengths

theorem forall_layoutFrom (hslice : ∀ k offset length, P k → P (k.slice axis offset length))
    {whole : Shape α} (hp : P whole) (offset : α) (items : List (Item α σ)) (lengths : List α) :
    ∀ b ∈ (layoutFrom env axis whole offset items lengths).branches, P b.shape := by
  match items, lengths with
  | [], _ => simp [layoutFrom, Layout.empty]
  | _ :: _, [] => simp [layoutFrom, Layout.empty]
  | i :: is, length :: lengths =>
    rw [layoutFrom]
    intro b hb
    rcases Layout.mem_branches_append hb with hb | hb
    · exact Item.forall_layout hslice (hslice whole offset length hp) i b hb
    · exact forall_layoutFrom hslice hp _ is lengths b hb

end

theorem Item.reaches_layout (env : Env α) (axis : Axis) (piece : Shape α) (i : Item α σ) :
    ∀ b ∈ (i.layout env axis piece).branches, piece.transform.Reaches b.shape.transform :=
  i.forall_layout (P := fun k => piece.transform.Reaches k.transform)
    (fun k offset length hk => hk.trans (k.reaches_slice axis offset length)) .refl

theorem Item.kind_layout (env : Env α) (axis : Axis) (piece : Shape α) (i : Item α σ) :
    ∀ b ∈ (i.layout env axis piece).branches, b.shape.kind = piece.kind :=
  i.forall_layout (P := fun k => k.kind = piece.kind) (fun _ _ _ hk => hk) rfl

end Layout

/-- Every shape that an operation makes has a frame reached from the one it is applied to. -/
theorem Operation.reaches_apply {env : Env α} {op : Operation α σ} {h : Shape α} {e : Effect α σ}
    (he : op.apply env h = .ok e) : ∀ k ∈ e.shapes, h.transform.Reaches k.transform := by
  cases applies he with
  | translate _ => exact List.forall_mem_singleton.mpr (.translate _ .refl)
  | rotate _ => exact List.forall_mem_singleton.mpr (.rotate (.ofPitchYawRoll _) .refl)
  | scale _ => exact List.forall_mem_singleton.mpr .refl
  | extrude _ hk => exact List.forall_mem_singleton.mpr (Shape.reaches_extrude hk)
  | componentSplit hpool hbs =>
    exact List.forall_mem_map.mpr fun b hb => Shape.reaches_components hpool _ (mem_of_assign hbs b hb)
  | @split axis _ p _ => exact List.forall_mem_map.mpr (p.toItem.reaches_layout env axis h)

end ShapeGrammar
