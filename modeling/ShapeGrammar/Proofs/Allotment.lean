import ShapeGrammar.Proofs.Sharing

/-! What an allocation comes to, said item by item. The sizes of the steps in a pattern are evaluated in
the order in which they are written, and the first error counts; what a nested pattern holds does not.
After that there is one way left to fail: items that share what is left over, with weights that
sum to zero. -/
namespace ShapeGrammar
variable {α σ : Type}

def Scalar.IsExact (α : Type) [scalar : Scalar α] : Prop :=
  ∃ exact : ExactScalar α, exact.toScalar = scalar

namespace Item

/-- The size written at a step; a nested pattern has none. -/
def gauge? : Item α σ → Option (Expr α)
  | step (.absolute e) _ | step (.relative e) _ => some e
  | nested _ _ => none

/-- The item with nothing in it that is laid out later. -/
def hollow : Item α σ → Item α σ
  | step size s => step size s
  | nested _ _ => nested [] false

variable [Scalar α] (env : Env α)

def fixed? : Item α σ → Option α
  | step (.absolute e) _ => (e.eval env).toOption
  | step (.relative _) _ | nested _ _ => none

def weight? : Item α σ → Option α
  | step (.absolute _) _ => none
  | step (.relative e) _ => (e.eval env).toOption
  | nested _ _ => some 1

end Item

section Demands
variable [Scalar α] {env : Env α}

def FirstError (env : Env α) (es : List (Expr α)) (err : Error) : Prop :=
  ∃ before e after, es = before ++ e :: after ∧ (∀ d ∈ before, ∃ v, d.eval env = .ok v) ∧
    e.eval env = .error err

theorem firstError_cons {e : Expr α} {es : List (Expr α)} {err : Error} :
    FirstError env (e :: es) err ↔
      e.eval env = .error err ∨ (∃ v, e.eval env = .ok v) ∧ FirstError env es err := by
  constructor
  · rintro ⟨before, d, after, heq, hbefore, hd⟩
    cases before with
    | nil =>
      cases heq
      exact .inl hd
    | cons b bs =>
      cases heq
      obtain ⟨hb, hbs⟩ := List.forall_mem_cons.mp hbefore
      exact .inr ⟨hb, bs, d, after, rfl, hbs, hd⟩
  · rintro (he | ⟨hv, before, d, after, rfl, hbefore, hd⟩)
    · exact ⟨[], e, es, rfl, List.forall_mem_nil _, he⟩
    · exact ⟨e :: before, d, after, rfl, List.forall_mem_cons.mpr ⟨hv, hbefore⟩, hd⟩

theorem demands_eq_ok {items : List (Item α σ)} {ds : List (Demand α)} :
    demands env items = .ok ds ↔ List.Forall₂ (fun i d => i.demand env = .ok d) items ds := by
  induction items generalizing ds with
  | nil => cases ds <;> simp [demands]
  | cons i is ih =>
    rw [demands, bind_eq_ok, List.forall₂_cons_left_iff]
    simp only [bind_eq_ok, ih]
    constructor
    · rintro ⟨d, hd, ds', hds, h⟩
      cases h
      exact ⟨d, ds', hd, hds, rfl⟩
    · rintro ⟨d, ds', hd, hds, rfl⟩
      exact ⟨d, hd, ds', hds, rfl⟩

theorem Item.demand_eq_error {i : Item α σ} {err : Error} :
    i.demand env = .error err ↔ ∃ e, i.gauge? = some e ∧ e.eval env = .error err := by
  rcases i with ⟨e | e, s⟩ | ⟨items, repeats⟩ <;> simp [demand, gauge?, map_eq_error]

theorem Item.exists_demand {i : Item α σ} :
    (∃ d, i.demand env = .ok d) ↔ ∀ e, i.gauge? = some e → ∃ v, e.eval env = .ok v := by
  rcases i with ⟨e | e, s⟩ | ⟨items, repeats⟩ <;> simp [demand, gauge?, map_eq_ok]

theorem Item.fixed_of_demand {i : Item α σ} {d : Demand α} (h : i.demand env = .ok d) :
    d.fixed? = i.fixed? env := by
  rcases i with ⟨e | e, s⟩ | ⟨items, repeats⟩
  · obtain ⟨v, hv, rfl⟩ := map_eq_ok.mp h
    rw [fixed?, hv]
    rfl
  · obtain ⟨w, -, rfl⟩ := map_eq_ok.mp h
    rfl
  · cases h
    rfl

theorem Item.weight_of_demand {i : Item α σ} {d : Demand α} (h : i.demand env = .ok d) :
    d.share? = i.weight? env := by
  rcases i with ⟨e | e, s⟩ | ⟨items, repeats⟩
  · obtain ⟨v, -, rfl⟩ := map_eq_ok.mp h
    rfl
  · obtain ⟨w, hw, rfl⟩ := map_eq_ok.mp h
    rw [weight?, hw]
    rfl
  · cases h
    rfl

theorem exists_demands {items : List (Item α σ)} :
    (∃ ds, demands env items = .ok ds) ↔
      ∀ e ∈ items.filterMap Item.gauge?, ∃ v, e.eval env = .ok v := by
  induction items with
  | nil => simp [demands]
  | cons i is ih =>
    have hcons : (∃ ds, demands env (i :: is) = .ok ds) ↔
        (∃ d, i.demand env = .ok d) ∧ ∃ ds, demands env is = .ok ds := by
      simp only [demands_eq_ok, List.forall₂_cons_left_iff]
      constructor
      · rintro ⟨_, d, ds, hd, hds, -⟩
        exact ⟨⟨d, hd⟩, ds, hds⟩
      · rintro ⟨⟨d, hd⟩, ds, hds⟩
        exact ⟨_, d, ds, hd, hds, rfl⟩
    rw [hcons, Item.exists_demand, ih]
    cases hi : i.gauge? with
    | none => simp [List.filterMap_cons_none hi]
    | some e => simp [List.filterMap_cons_some hi]

theorem demands_eq_error {items : List (Item α σ)} {err : Error} :
    demands env items = .error err ↔ FirstError env (items.filterMap Item.gauge?) err := by
  induction items with
  | nil => simp [demands, FirstError]
  | cons i is ih =>
    have hcons : demands env (i :: is) = .error err ↔
        i.demand env = .error err ∨ (∃ d, i.demand env = .ok d) ∧ demands env is = .error err := by
      rw [demands, bind_eq_error]
      simp only [bind_eq_error, pure, Except.pure, reduceCtorEq, and_false, exists_false, or_false,
        ← exists_and_right]
    rw [hcons, Item.demand_eq_error, Item.exists_demand, ih]
    cases hi : i.gauge? with
    | none => simp [List.filterMap_cons_none hi]
    | some e => simp [List.filterMap_cons_some hi, firstError_cons]

theorem filterMap_eq_of_forall₂ {β γ δ : Type} {R : β → γ → Prop} {f : β → Option δ} {g : γ → Option δ}
    {xs : List β} {ys : List γ} (h : List.Forall₂ R xs ys) (hfg : ∀ x y, R x y → g y = f x) :
    ys.filterMap g = xs.filterMap f := by
  induction h with
  | nil => rfl
  | cons hxy _ ih => rw [List.filterMap_cons, List.filterMap_cons, hfg _ _ hxy, ih]

theorem filterMap_fixed {items : List (Item α σ)} {ds : List (Demand α)} (h : demands env items = .ok ds) :
    ds.filterMap Demand.fixed? = items.filterMap (Item.fixed? env) :=
  filterMap_eq_of_forall₂ (demands_eq_ok.mp h) fun _ _ => Item.fixed_of_demand

theorem filterMap_weight {items : List (Item α σ)} {ds : List (Demand α)} (h : demands env items = .ok ds) :
    ds.filterMap Demand.share? = items.filterMap (Item.weight? env) :=
  filterMap_eq_of_forall₂ (demands_eq_ok.mp h) fun _ _ => Item.weight_of_demand

/-- What a weight of one is worth. -/
def rate (env : Env α) (items : List (Item α σ)) (extent : α) : α :=
  (extent - total (items.filterMap (Item.fixed? env))) / total (items.filterMap (Item.weight? env))

theorem distribute_of_demands {items : List (Item α σ)} {ds : List (Demand α)} (extent : α)
    (h : demands env items = .ok ds) :
    distribute extent ds =
      if items.filterMap (Item.weight? env) ≠ [] ∧
          Scalar.isZero (total (items.filterMap (Item.weight? env))) = true then
        .error (.divisionByZero "split")
      else .ok (ds.map (Demand.length (rate env items extent))) := by
  rw [distribute, filterMap_fixed h, filterMap_weight h]
  refine if_congr ?_ rfl (congrArg Except.ok (List.map_congr_left fun d _ => ?_))
  · simp
  · cases d <;> rfl

theorem weights_ne_nil_iff {items : List (Item α σ)} {ds : List (Demand α)}
    (h : demands env items = .ok ds) :
    items.filterMap (Item.weight? env) ≠ [] ↔ ∃ i ∈ items, i.shares = true := by
  refine ⟨fun hne => ?_, fun hs => filterMap_weight h ▸ weights_ne_nil h hs⟩
  obtain ⟨w, hw⟩ := List.exists_mem_of_ne_nil _ hne
  obtain ⟨i, hi, hiw⟩ := List.mem_filterMap.mp hw
  refine ⟨i, hi, ?_⟩
  rcases i with ⟨e | e, s⟩ | ⟨items, repeats⟩
  · cases hiw
  · rfl
  · rfl

theorem allocate_eq_error {items : List (Item α σ)} {extent : α} {err : Error} :
    allocate env items extent = .error err ↔
      FirstError env (items.filterMap Item.gauge?) err ∨
      (∀ e ∈ items.filterMap Item.gauge?, ∃ v, e.eval env = .ok v) ∧ (∃ i ∈ items, i.shares = true) ∧
        Scalar.isZero (total (items.filterMap (Item.weight? env))) = true ∧
        err = .divisionByZero "split" := by
  rw [allocate, bind_eq_error, demands_eq_error, ← exists_demands, ← exists_and_right]
  refine or_congr_right (exists_congr fun ds => and_congr_right fun hds => ?_)
  rw [distribute_of_demands extent hds, ← weights_ne_nil_iff hds, ← and_assoc]
  split
  · next hzero => rw [and_iff_right hzero, Except.error.injEq, eq_comm]
  · next hzero =>
    constructor
    · intro hok
      cases hok
    · intro hc
      exact absurd hc.1 hzero

theorem forall₂_allocate {items : List (Item α σ)} {extent : α} {lengths : List α}
    (h : allocate env items extent = .ok lengths) :
    List.Forall₂ (fun i l => ∃ d, i.demand env = .ok d ∧ d.length (rate env items extent) = l)
      items lengths := by
  rw [allocate, bind_eq_ok] at h
  obtain ⟨ds, hds, h⟩ := h
  rw [distribute_of_demands extent hds] at h
  split at h
  · cases h
  · cases h
    rw [List.forall₂_map_right_iff]
    exact (demands_eq_ok.mp hds).imp fun i d hd => ⟨d, hd, rfl⟩

theorem demand_hollow (i : Item α σ) : i.hollow.demand env = i.demand env := by
  rcases i with ⟨e | e, s⟩ | ⟨items, repeats⟩ <;> rfl

/-- What nested patterns hold has no part in an allocation. -/
theorem allocate_hollow (env : Env α) (items : List (Item α σ)) (extent : α) :
    allocate env (items.map Item.hollow) extent = allocate env items extent := by
  have hdemands : demands env (items.map Item.hollow) = demands env items := by
    induction items with
    | nil => rfl
    | cons i is ih => rw [List.map_cons, demands, demands, demand_hollow, ih]
  rw [allocate, allocate, hdemands]

end Demands

theorem length_mul_weight [ExactScalar α] {env : Env α} {i j : Item α σ} {d e : Demand α} {v w : α}
    (rate : α) (hd : i.demand env = .ok d) (he : j.demand env = .ok e) (hv : i.weight? env = some v)
    (hw : j.weight? env = some w) : d.length rate * w = e.length rate * v := by
  rw [← Item.weight_of_demand hd] at hv
  rw [← Item.weight_of_demand he] at hw
  cases d <;> cases hv
  cases e <;> cases hw
  simp only [Demand.length]
  ring

/-- An allocation fails by the first error among the sizes of the steps, and else just if something
shares what is left over and the weights sum to zero; nested patterns are not looked into. Otherwise
each item gets a length, a fixed one just the length that is written. In exact arithmetic the
lengths add up to the extent as soon as something is shared, and shares are in proportion to their
weights. -/
theorem allocation_is_proportional [Scalar α] (env : Env α) (items : List (Item α σ)) (extent : α) :
    (∀ err, allocate env items extent = .error err ↔
      FirstError env (items.filterMap Item.gauge?) err ∨
      (∀ e ∈ items.filterMap Item.gauge?, ∃ v, e.eval env = .ok v) ∧ (∃ i ∈ items, i.shares = true) ∧
        Scalar.isZero (total (items.filterMap (Item.weight? env))) = true ∧
        err = .divisionByZero "split") ∧
    allocate env (items.map Item.hollow) extent = allocate env items extent ∧
    ∀ lengths, allocate env items extent = .ok lengths →
      lengths.length = items.length ∧
      (∀ p ∈ items.zip lengths, ∀ e s, p.1 = .step (.absolute e) s → e.eval env = .ok p.2) ∧
      (Scalar.IsExact α →
        ((∃ i ∈ items, i.shares = true) → total lengths = extent) ∧
        ∀ p ∈ items.zip lengths, ∀ q ∈ items.zip lengths, ∀ v w,
          p.1.weight? env = some v → q.1.weight? env = some w → p.2 * w = q.2 * v) := by
  refine ⟨fun err => allocate_eq_error, allocate_hollow env items extent, fun lengths h => ?_⟩
  have hmeets : ∀ p ∈ items.zip lengths, ∃ d, p.1.demand env = .ok d ∧
      d.length (rate env items extent) = p.2 :=
    fun _ => (List.forall₂_iff_zip.mp (forall₂_allocate h)).2
  refine ⟨length_allocate h, fun p hp e s hi => ?_, ?_⟩
  · obtain ⟨d, hd, hl⟩ := hmeets p hp
    rw [hi] at hd
    obtain ⟨v, hv, rfl⟩ := map_eq_ok.mp hd
    exact hv.trans (congrArg Except.ok hl)
  · rintro ⟨exact, rfl⟩
    refine ⟨fun hs => (total_eq_sum lengths).trans (sum_allocate h hs), ?_⟩
    intro p hp q hq v w hv hw
    obtain ⟨d, hd, hl⟩ := hmeets p hp
    obtain ⟨e, he, hm⟩ := hmeets q hq
    rw [← hl, ← hm]
    exact length_mul_weight _ hd he hv hw

theorem Scalar.isExact_rat : Scalar.IsExact ℚ := ⟨inferInstance, rfl⟩

theorem allocation_is_proportional_dresser :
    let number (x : ℚ) : Expr ℚ := .constant x .plain
    let env : Env ℚ := ⟨fun _ => none, none⟩
    let plinth : Item ℚ String := .step (.absolute (number 2)) "plinth"
    let drawers : Item ℚ String := .nested [.step (.absolute (.attr "unknown" .plain)) "drawer"] false
    let shelf : Item ℚ String := .step (.relative (number 3)) "shelf"
    let items := [plinth, drawers, shelf]
    let lengths : List ℚ := [2, 5 / 2, 15 / 2]
    Scalar.IsExact ℚ ∧ (∃ i ∈ items, i.shares = true) ∧ allocate env items 12 = .ok lengths ∧
    (plinth, 2) ∈ items.zip lengths ∧ (number 2).eval env = .ok 2 ∧ total lengths = 12 ∧
    (drawers, 5 / 2) ∈ items.zip lengths ∧ drawers.weight? env = some 1 ∧
    (shelf, 15 / 2) ∈ items.zip lengths ∧ shelf.weight? env = some 3 ∧
    (5 / 2 : ℚ) * 3 = 15 / 2 * 1 := by
  intro number env plinth drawers shelf items lengths
  have hshares : ∃ i ∈ items, i.shares = true := ⟨shelf, by simp [items], rfl⟩
  have hallocate : allocate env items 12 = .ok lengths := by decide +kernel
  have hplinth : (plinth, 2) ∈ items.zip lengths := by simp [items, lengths]
  have hdrawers : (drawers, 5 / 2) ∈ items.zip lengths := by simp [items, lengths]
  have hshelf : (shelf, 15 / 2) ∈ items.zip lengths := by simp [items, lengths]
  obtain ⟨-, -, h⟩ := allocation_is_proportional env items 12
  obtain ⟨-, habsolute, hexact⟩ := h lengths hallocate
  obtain ⟨htotal, hshare⟩ := hexact Scalar.isExact_rat
  exact ⟨Scalar.isExact_rat, hshares, hallocate, hplinth, habsolute _ hplinth (number 2) "plinth" rfl,
    htotal hshares, hdrawers, rfl, hshelf, rfl, hshare _ hdrawers _ hshelf 1 3 rfl rfl⟩

end ShapeGrammar
