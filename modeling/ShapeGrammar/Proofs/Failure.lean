import ShapeGrammar.Proofs.Reading

/-! The errors an operation can meet. With a shape at hand it fails only by what its parameters
read or divide by, or by a kind of shape it is not made for: never for want of a shape, never by a
test of faces against a parent that is no box. An attribute it misses is one that it reads. -/
namespace ShapeGrammar

section Except
variable {ε β γ : Type}

theorem bind_eq_ok {x : Except ε β} {f : β → Except ε γ} {c : γ} :
    x >>= f = .ok c ↔ ∃ b, x = .ok b ∧ f b = .ok c := by
  cases x <;> simp [bind, Except.bind]

theorem bind_eq_error {x : Except ε β} {f : β → Except ε γ} {e : ε} :
    x >>= f = .error e ↔ x = .error e ∨ ∃ b, x = .ok b ∧ f b = .error e := by
  cases x <;> simp [bind, Except.bind]

theorem map_eq_ok {x : Except ε β} {f : β → γ} {c : γ} :
    x.map f = .ok c ↔ ∃ b, x = .ok b ∧ f b = c := by
  cases x <;> simp [Except.map]

theorem map_eq_error {x : Except ε β} {f : β → γ} {e : ε} :
    x.map f = .error e ↔ x = .error e := by
  cases x <;> simp [Except.map]

end Except

namespace Error

/-- Errors of an operation with a shape at hand. -/
def isLocal : Error → Bool
  | undefinedAttribute _ | unsupportedExtrusion _ _ | unsupportedComponent _ _ | divisionByZero _ => true
  | noStrategy operation _ => operation != "semantic selection"
  | _ => false

/-- Errors that say where they were met, or that concern the derivation as a whole. -/
def isSettled : Error → Bool
  | within _ _ | limitExceeded _ => true
  | _ => false

theorem isSettled_of_isLocal {e : Error} (h : e.isLocal = true) : e.isSettled = false := by
  cases e <;> simp_all [isLocal, isSettled]

theorem root_of_isLocal {e : Error} (h : e.isLocal = true) : e.root = e := by
  cases e <;> simp_all [isLocal, root]

theorem ne_emptyStack_of_isLocal {e : Error} (h : e.isLocal = true) : e ≠ .emptyStack := by
  rintro rfl
  simp [isLocal] at h

end Error

variable {α σ : Type}

/-- A local error of something that reads these attributes: if it misses one, it is one of them and
has no value. -/
structure Error.LocalTo (env : Env α) (reads : List String) (err : Error) : Prop where
  isLocal : err.isLocal = true
  undefined : ∀ n, err = .undefinedAttribute n → n ∈ reads ∧ env.attr n = none

namespace Error.LocalTo
variable {env : Env α} {ns ms : List String} {err : Error}

theorem mono (h : err.LocalTo env ns) (hs : ns ⊆ ms) : err.LocalTo env ms where
  isLocal := h.isLocal
  undefined n hn := by
    obtain ⟨hmem, hnone⟩ := h.undefined n hn
    exact ⟨hs hmem, hnone⟩

theorem left (h : err.LocalTo env ns) : err.LocalTo env (ns ++ ms) :=
  h.mono (List.subset_append_left ns ms)

theorem right (h : err.LocalTo env ms) : err.LocalTo env (ns ++ ms) :=
  h.mono (List.subset_append_right ns ms)

theorem divisionByZero (env : Env α) (ns : List String) (site : String) :
    (Error.divisionByZero site).LocalTo env ns :=
  ⟨rfl, fun n hn => by cases hn⟩

end Error.LocalTo

theorem Layout.failure_append {l m : Layout α σ} {err : Error} (h : (l ++ m).failure = some err) :
    l.failure = some err ∨ m.failure = some err := by
  rcases l with ⟨bs, _ | e⟩
  · exact .inr h
  · exact .inl h

variable [Scalar α] {env : Env α}

theorem Operator.apply_error {op : Operator} {x y : α} {err : Error} (h : op.apply x y = .error err) :
    ∃ site, err = .divisionByZero site := by
  cases op <;> simp only [apply, reduceCtorEq] at h
  all_goals
    split at h
    · cases h; exact ⟨_, rfl⟩
    · cases h

theorem Expr.eval_error (hs : env.shape.isSome = true) {e : Expr α} {err : Error}
    (h : e.eval env = .error err) : err.LocalTo env e.reads := by
  induction e with
  | constant v m => cases h
  | attr n m =>
    rw [eval, map_eq_error, Env.value] at h
    split at h
    · cases h
    · next hnone =>
      cases h
      refine ⟨rfl, fun k hk => ?_⟩
      cases hk
      exact ⟨by simp [reads], hnone⟩
  | scope a m =>
    obtain ⟨k, hk⟩ := Option.isSome_iff_exists.mp hs
    rw [eval, map_eq_error, Env.target, hk] at h
    cases h
  | binary op l r m ihl ihr =>
    rw [eval, bind_eq_error] at h
    rcases h with hl | ⟨x, -, h⟩
    · exact (ihl hl).left
    rw [bind_eq_error] at h
    rcases h with hr | ⟨y, -, h⟩
    · exact (ihr hr).right
    rw [bind_eq_error] at h
    rcases h with ho | ⟨z, -, h⟩
    · obtain ⟨site, rfl⟩ := Operator.apply_error ho
      exact .divisionByZero env _ site
    · cases h

theorem Vec3.eval_error (hs : env.shape.isSome = true) {v : Vec3 (Expr α)} {err : Error}
    (h : v.eval env = .error err) : err.LocalTo env v.reads := by
  rw [eval, bind_eq_error] at h
  rcases h with hx | ⟨x, -, h⟩
  · exact (Expr.eval_error hs hx).left
  rw [bind_eq_error] at h
  rcases h with hy | ⟨y, -, h⟩
  · exact (Expr.eval_error hs hy).left.right
  rw [bind_eq_error] at h
  rcases h with hz | ⟨z, -, h⟩
  · exact (Expr.eval_error hs hz).right.right
  · cases h

theorem Item.demand_error (hs : env.shape.isSome = true) {i : Item α σ} {err : Error}
    (h : i.demand env = .error err) : err.LocalTo env i.reads := by
  rcases i with ⟨e | e, s⟩ | ⟨items, repeats⟩
  · exact Expr.eval_error hs (map_eq_error.mp h)
  · exact Expr.eval_error hs (map_eq_error.mp h)
  · cases h

theorem demands_error (hs : env.shape.isSome = true) {items : List (Item α σ)} {err : Error}
    (h : demands env items = .error err) : err.LocalTo env (readsOf items) := by
  induction items with
  | nil => cases h
  | cons i is ih =>
    rw [demands, bind_eq_error] at h
    rcases h with hi | ⟨d, -, h⟩
    · exact (Item.demand_error hs hi).left
    rw [bind_eq_error] at h
    rcases h with his | ⟨ds, -, h⟩
    · exact (ih his).right
    · cases h

theorem allocate_error (hs : env.shape.isSome = true) {items : List (Item α σ)} {extent : α}
    {err : Error} (h : allocate env items extent = .error err) : err.LocalTo env (readsOf items) := by
  rw [allocate, bind_eq_error] at h
  rcases h with hd | ⟨ds, -, h⟩
  · exact demands_error hs hd
  · simp only [distribute] at h
    split at h
    · cases h
      exact .divisionByZero env _ "split"
    · cases h

mutual

theorem Item.layout_failure (hs : env.shape.isSome = true) (axis : Axis) (piece : Shape α)
    (err : Error) (i : Item α σ) (h : (i.layout env axis piece).failure = some err) :
    err.LocalTo env i.reads := by
  match i with
  | .step size s => rw [Item.layout] at h; cases h
  | .nested items _ =>
    rw [Item.layout] at h
    split at h
    · next e he =>
      cases h
      exact allocate_error hs he
    · next lengths _ => exact layoutFrom_failure hs axis piece err 0 items lengths h

theorem layoutFrom_failure (hs : env.shape.isSome = true) (axis : Axis) (whole : Shape α)
    (err : Error) (offset : α) (items : List (Item α σ)) (lengths : List α)
    (h : (layoutFrom env axis whole offset items lengths).failure = some err) :
    err.LocalTo env (readsOf items) := by
  match items, lengths with
  | [], _ => simp [layoutFrom, Layout.empty] at h
  | _ :: _, [] => simp [layoutFrom, Layout.empty] at h
  | i :: is, length :: lengths =>
    rw [layoutFrom] at h
    rcases Layout.failure_append h with hi | his
    · exact (Item.layout_failure hs axis _ err i hi).left
    · exact (layoutFrom_failure hs axis whole err _ is lengths his).right

end

/-- All components are quads, so they can be told apart by the faces of a box. -/
theorem Shape.components_eq_ok {h : Shape α} {c : Component} {ks : List (Shape α)}
    (hk : h.components c = .ok ks) : h.kind = .box ∧ ∀ k ∈ ks, k.kind = .quad := by
  cases hb : h.kind with
  | quad => simp [components, hb] at hk
  | box =>
    cases c <;> simp only [components, hb, Except.ok.injEq, reduceCtorEq] at hk
    refine ⟨rfl, fun k hmem => ?_⟩
    rw [← hk, List.mem_map] at hmem
    obtain ⟨f, -, rfl⟩ := hmem
    rfl

theorem Shape.components_error {h : Shape α} {c : Component} {err : Error}
    (hk : h.components c = .error err) : err.LocalTo env [] := by
  cases hb : h.kind <;> cases c <;> simp only [components, hb, Except.error.injEq, reduceCtorEq] at hk
  all_goals subst hk; exact ⟨rfl, fun n hn => by cases hn⟩

theorem Shape.extrude_error {h : Shape α} {axis : Axis} {d : α} {err : Error}
    (he : h.extrude axis d = .error err) : err.LocalTo env [] := by
  cases hb : h.kind <;> cases axis <;> simp only [extrude, hb, Except.error.injEq, reduceCtorEq] at he
  all_goals subst he; exact ⟨rfl, fun n hn => by cases hn⟩

theorem sift_ok {parent : Shape α} (hp : parent.kind = .box) (s : FaceSelector) {pool : List (Shape α)}
    (hq : ∀ k ∈ pool, k.kind = .quad) :
    ∃ ins outs, sift (fun c => s.selects parent c) pool = .ok (ins, outs) ∧
      ∀ k ∈ outs, k.kind = .quad := by
  induction pool with
  | nil => exact ⟨[], [], rfl, by simp⟩
  | cons c cs ih =>
    obtain ⟨ins, outs, hcs, hout⟩ := ih fun k hk => hq k (by simp [hk])
    have hc : c.kind = .quad := hq c (by simp)
    obtain ⟨accepted, ha⟩ : ∃ b, s.selects parent c = .ok b := ⟨_, by rw [FaceSelector.selects, hp, hc]⟩
    simp only [sift, ha, hcs, bind, Except.bind, pure, Except.pure]
    cases accepted with
    | true => exact ⟨c :: ins, outs, rfl, hout⟩
    | false =>
      refine ⟨ins, c :: outs, rfl, fun k hk => ?_⟩
      rcases List.mem_cons.mp hk with rfl | hk
      · exact hc
      · exact hout k hk

theorem assign_ok {parent : Shape α} (hp : parent.kind = .box) (ks : List (Selection σ))
    {pool : List (Shape α)} (hq : ∀ k ∈ pool, k.kind = .quad) :
    ∃ bs, assign parent ks pool = .ok bs := by
  induction ks generalizing pool with
  | nil => exact ⟨[], rfl⟩
  | cons k ks ih =>
    obtain ⟨ins, outs, hsift, hout⟩ := sift_ok hp k.selector hq
    obtain ⟨rest, hrest⟩ := ih hout
    refine ⟨ins.map (fun c => ⟨k.successor, c⟩) ++ rest, ?_⟩
    simp only [assign, hsift, hrest, bind, Except.bind, pure, Except.pure]

theorem Operation.apply_error (hs : env.shape.isSome = true) {op : Operation α σ} {h : Shape α}
    {err : Error} (he : op.apply env h = .error err) : err.LocalTo env op.reads := by
  cases op with
  | translate v | rotate v | scale v =>
    rw [apply, bind_eq_error] at he
    rcases he with hv | ⟨w, -, he⟩
    · exact Vec3.eval_error hs hv
    · cases he
  | extrude axis d =>
    rw [apply, bind_eq_error] at he
    rcases he with hd | ⟨x, -, he⟩
    · exact Expr.eval_error hs hd
    rw [bind_eq_error] at he
    rcases he with hx | ⟨k, -, he⟩
    · exact (Shape.extrude_error hx).mono (List.nil_subset _)
    · cases he
  | componentSplit c ks =>
    rw [apply, bind_eq_error] at he
    rcases he with hc | ⟨pool, hc, he⟩
    · exact Shape.components_error hc
    obtain ⟨hbox, hquad⟩ := Shape.components_eq_ok hc
    obtain ⟨bs, hbs⟩ := assign_ok hbox ks hquad
    rw [hbs] at he
    cases he
  | split axis adjustment p =>
    rw [apply, bind_eq_error] at he
    rcases he with hl | ⟨bs, -, he⟩
    · rw [Layout.complete] at hl
      split at hl
      · next f hf =>
        cases hl
        exact Item.layout_failure hs axis h _ p.toItem hf
      · cases hl
    · cases he

end ShapeGrammar
