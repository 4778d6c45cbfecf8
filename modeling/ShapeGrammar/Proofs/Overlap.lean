import ShapeGrammar.Proofs.Allotment
import ShapeGrammar.Proofs.Tiling

/-! Extents that stay non-negative under splitting, and spans that do not overlap. Sizes and weights that
are not negative are not enough for this: where the fixed lengths of a pattern exceed its span, what
is left to share is negative, and a nested pattern of fixed lengths alone runs into what comes after it.
Nothing else can go wrong. -/
namespace ShapeGrammar
variable {α σ : Type} [ExactScalar α]

namespace Span

def Apart (s t : Span α) : Prop :=
  ∀ x, ¬ ((s.start ≤ x ∧ x < s.stop) ∧ t.start ≤ x ∧ x < t.stop)

theorem apart_of_le {s t : Span α} (h : s.stop ≤ t.start) : s.Apart t :=
  fun _ ⟨⟨_, hs⟩, ht, _⟩ => absurd (hs.trans_le (h.trans ht)) (lt_irrefl _)

end Span

namespace Row
variable {a b : α} {ss : List (Span α)}

theorem le_start (h : Row (· ≤ ·) a b ss) (hss : ∀ s ∈ ss, 0 ≤ s.length) : ∀ s ∈ ss, a ≤ s.start := by
  induction ss generalizing a with
  | nil => exact List.forall_mem_nil _
  | cons s ss ih =>
    obtain ⟨hs, hss⟩ := List.forall_mem_cons.mp hss
    have hstart : a ≤ s.start + s.length := h.1.trans (le_add_of_nonneg_right hs)
    exact List.forall_mem_cons.mpr ⟨h.1, fun t ht => hstart.trans (ih h.2 hss t ht)⟩

/-- Spans that follow one another do not overlap unless one of them runs backwards. -/
theorem pairwise_apart (h : Row (· ≤ ·) a b ss) (hss : ∀ s ∈ ss, 0 ≤ s.length) :
    ss.Pairwise Span.Apart := by
  induction ss generalizing a with
  | nil => exact .nil
  | cons s ss ih =>
    obtain ⟨-, hss⟩ := List.forall_mem_cons.mp hss
    exact .cons (fun t ht => Span.apart_of_le (h.2.le_start hss t ht)) (ih h.2 hss)

end Row

section Allocation
variable {env : Env α}

def Item.Nonneg (env : Env α) (i : Item α σ) : Prop :=
  ∀ e, i.gauge? = some e → ∀ v, e.eval env = .ok v → 0 ≤ v

theorem Item.length_nonneg {i : Item α σ} {d : Demand α} {rate : α} (hi : i.Nonneg env)
    (hd : i.demand env = .ok d) (hrate : i.shares = true → 0 ≤ rate) : 0 ≤ d.length rate := by
  rcases i with ⟨e | e, s⟩ | ⟨items, repeats⟩
  · obtain ⟨v, hv, rfl⟩ := map_eq_ok.mp hd
    exact hi e rfl v hv
  · obtain ⟨w, hw, rfl⟩ := map_eq_ok.mp hd
    exact mul_nonneg (hrate rfl) (hi e rfl w hw)
  · cases hd
    exact mul_nonneg (hrate rfl) zero_le_one

theorem Item.weight_nonneg {i : Item α σ} {w : α} (hi : i.Nonneg env) (hw : i.weight? env = some w) :
    0 ≤ w := by
  rcases i with ⟨e | e, s⟩ | ⟨items, repeats⟩
  · cases hw
  · cases he : e.eval env with
    | error err =>
      rw [weight?, he] at hw
      cases hw
    | ok v =>
      rw [weight?, he] at hw
      cases hw
      exact hi e rfl w he
  · cases hw
    exact zero_le_one

theorem rate_nonneg {items : List (Item α σ)} {extent : α} (hitems : ∀ i ∈ items, i.Nonneg env)
    (hfits : total (items.filterMap (Item.fixed? env)) ≤ extent) : 0 ≤ rate env items extent := by
  refine div_nonneg (sub_nonneg.mpr hfits) ?_
  rw [total_eq_sum]
  refine List.sum_nonneg fun w hw => ?_
  obtain ⟨i, hi, hiw⟩ := List.mem_filterMap.mp hw
  exact Item.weight_nonneg (hitems i hi) hiw

/-- Where shares come out of something that is not negative, no length is negative. -/
theorem allocate_nonneg {items : List (Item α σ)} {extent : α} {lengths : List α}
    (ha : allocate env items extent = .ok lengths) (hitems : ∀ i ∈ items, i.Nonneg env)
    (hfits : (∃ i ∈ items, i.shares = true) → total (items.filterMap (Item.fixed? env)) ≤ extent) :
    ∀ l ∈ lengths, 0 ≤ l := by
  intro l hl
  rw [← List.map_snd_zip (length_allocate ha).le] at hl
  obtain ⟨⟨i, l⟩, hmem, rfl⟩ := List.mem_map.mp hl
  have hi : i ∈ items := (List.of_mem_zip hmem).1
  obtain ⟨d, hd, rfl⟩ := (List.forall₂_iff_zip.mp (forall₂_allocate ha)).2 hmem
  exact Item.length_nonneg (hitems i hi) hd fun hs => rate_nonneg hitems (hfits ⟨i, hi, hs⟩)

theorem sum_allocate_le {items : List (Item α σ)} {extent : α} {lengths : List α}
    (ha : allocate env items extent = .ok lengths)
    (hfits : total (items.filterMap (Item.fixed? env)) ≤ extent) : lengths.sum ≤ extent := by
  by_cases hs : ∃ i ∈ items, i.shares = true
  · exact (sum_allocate ha hs).le
  · rw [allocate, bind_eq_ok] at ha
    obtain ⟨ds, hds, ha⟩ := ha
    have hnone : items.filterMap (Item.weight? env) = [] :=
      of_not_not fun hne => hs ((weights_ne_nil_iff hds).mp hne)
    rw [distribute_of_demands extent hds, if_neg fun hzero => hzero.1 hnone] at ha
    cases ha
    rw [Demand.sum_length, filterMap_fixed hds, filterMap_weight hds, hnone, List.sum_nil, mul_zero,
      add_zero, ← total_eq_sum]
    exact hfits

end Allocation

section Visits
variable {env : Env α}

def Item.hasShares : Item α σ → Bool
  | .step _ _ => false
  | .nested items _ => items.any Item.shares

/-- A pattern has no fixed lengths beyond the span it is laid over. -/
def Visit.Fits (env : Env α) (v : Visit α σ (Span α)) : Prop :=
  match v.item, v.place with
  | .nested items _, some span => total (items.filterMap (Item.fixed? env)) ≤ span.length
  | _, _ => True

instance (env : Env α) (v : Visit α σ (Span α)) : Decidable (v.Fits env) :=
  match v with
  | ⟨.nested items _, some span⟩ =>
    inferInstanceAs (Decidable (total (items.filterMap (Item.fixed? env)) ≤ span.length))
  | ⟨.nested _ _, none⟩ | ⟨.step _ _, _⟩ => .isTrue trivial

mutual

/-- If no pattern in an item is shared out into negative lengths, no step in it gets one. -/
theorem Item.plots_nonneg (span : Span α) (i : Item α σ)
    (hspan : ∀ size s, i = .step size s → 0 ≤ span.length)
    (h : ∀ v ∈ i.visits Span.ground env (some span), v.Allots (fun _ lengths => ∀ l ∈ lengths, 0 ≤ l) env) :
    ∀ q ∈ (i.visits Span.ground env (some span)).filterMap Visit.plot?, 0 ≤ q.2.length := by
  match i with
  | .step size s => exact List.forall_mem_singleton.mpr (hspan size s rfl)
  | .nested items _ =>
    rw [Item.visits, List.forall_mem_cons] at h
    obtain ⟨⟨lengths, ha, hlengths⟩, h⟩ := h
    have hplaces := Span.ground.places_of_allocate ha
    rw [hplaces] at h
    rw [Item.visits, hplaces]
    exact plotsOf_nonneg span 0 items lengths hlengths (length_allocate ha) h

theorem plotsOf_nonneg (span : Span α) (offset : α) (items : List (Item α σ)) (lengths : List α)
    (hlengths : ∀ l ∈ lengths, 0 ≤ l) (hl : lengths.length = items.length)
    (h : ∀ v ∈ visitsOf Span.ground env items (Span.ground.cut span offset lengths),
      v.Allots (fun _ lengths => ∀ l ∈ lengths, 0 ≤ l) env) :
    ∀ q ∈ (visitsOf Span.ground env items (Span.ground.cut span offset lengths)).filterMap Visit.plot?,
      0 ≤ q.2.length := by
  match items, lengths with
  | [], _ => exact List.forall_mem_nil _
  | _ :: _, [] => cases hl
  | i :: is, length :: lengths =>
    obtain ⟨hlength, hlengths⟩ := List.forall_mem_cons.mp hlengths
    rw [Ground.cut, visitsOf, List.forall_mem_append] at h
    rw [Ground.cut, visitsOf, List.filterMap_append, List.forall_mem_append]
    exact ⟨Item.plots_nonneg _ i (fun _ _ _ => hlength) h.1,
      plotsOf_nonneg span _ is lengths hlengths (Nat.succ.inj hl) h.2⟩

end

end Visits

namespace Pattern

theorem exists_visits {p : Pattern α σ} {env : Env α} {axis : Axis} {whole : Shape α}
    (h : (p.layout env axis whole).failure = none) :
    ∃ lengths, allocate env p.items (whole.extent axis) = .ok lengths ∧
      p.visits Span.ground env ⟨0, whole.extent axis⟩ = ⟨p.toItem, some ⟨0, whole.extent axis⟩⟩ ::
        visitsOf Span.ground env p.items (Span.ground.cut ⟨0, whole.extent axis⟩ 0 lengths) := by
  rw [layout, toItem, Item.layout] at h
  cases ha : allocate env p.items (whole.extent axis) with
  | error e =>
    rw [ha] at h
    cases h
  | ok lengths =>
    exact ⟨lengths, rfl, congrArg (_ :: visitsOf _ env p.items ·) (Ground.places_of_allocate ha)⟩

/-- In a pattern without negative sizes that can be split, and in which no pattern that shares something
has fixed lengths beyond its span, all branches have extents that are not negative. If the fixed lengths
of no nested pattern exceed its span, the branches do not overlap either. -/
theorem sizes_stay_nonneg (p : Pattern α σ) (env : Env α) (axis : Axis) (whole : Shape α)
    (h : (p.layout env axis whole).failure = none) (hsizes : ∀ i ∈ p.toItem.preorder, i.Nonneg env)
    (hshared : ∀ v ∈ p.visits Span.ground env ⟨0, whole.extent axis⟩,
      v.item.hasShares = true → v.Fits env) :
    let layout := p.layout env axis whole
    let plots := p.plots env (whole.extent axis)
    layout.branches = plots.map (fun q => ⟨q.1, whole.slice axis q.2.start q.2.length⟩) ∧
    (∀ b ∈ layout.branches, 0 ≤ b.shape.extent axis) ∧
    ((∀ v ∈ (p.visits Span.ground env ⟨0, whole.extent axis⟩).tail, v.Fits env) →
      (plots.map (·.2)).Pairwise Span.Apart) := by
  intro layout plots
  have hbranches : layout.branches = plots.map fun q => ⟨q.1, whole.over axis q.2⟩ := branches_layout h
  have hshareable := error?_spans h
  have hnonneg : ∀ q ∈ plots, 0 ≤ q.2.length := by
    refine Item.plots_nonneg _ p.toItem nofun fun v hv => Visit.allots (hshareable v hv) ?_
    rintro items repeats span lengths rfl ha
    refine allocate_nonneg ha (fun i hi => hsizes i ?_) fun hs => hshared _ hv (List.any_eq_true.mpr hs)
    exact Item.mem_preorder_of_nested hi p.toItem (item_mem_preorder hv)
  refine ⟨hbranches, ?_, fun hnested => ?_⟩
  · rw [hbranches, List.forall_mem_map]
    intro q hq
    rw [Shape.over, Shape.extent_slice]
    exact hnonneg q hq
  · -- the root may be overfull: only what is nested in it has something to run into
    obtain ⟨lengths, ha, hvisits⟩ := exists_visits h
    rw [hvisits] at hshareable hnested
    have hplots : plots = (visitsOf Span.ground env p.items
        (Span.ground.cut ⟨0, whole.extent axis⟩ 0 lengths)).filterMap Visit.plot? :=
      (congrArg (List.filterMap Visit.plot?) hvisits).trans (List.filterMap_cons_none rfl)
    have hrow : Row (· ≤ ·) (0 + 0) (0 + (0 + lengths.sum)) (plots.map (·.2)) := by
      rw [hplots]
      refine row_visitsOf ⟨0, whole.extent axis⟩ 0 p.items lengths (length_allocate ha) fun v hv =>
        Visit.allots (hshareable v (List.mem_cons_of_mem _ hv)) ?_
      rintro items repeats span lengths rfl ha
      exact add_le_add le_rfl (sum_allocate_le ha (hnested _ hv))
    exact hrow.pairwise_apart (List.forall_mem_map.mpr hnonneg)

theorem sizes_stay_nonneg_facade :
    let number (x : ℚ) : Expr ℚ := .constant x .plain
    let facade : Pattern ℚ String := .ofItems
      [.step (.absolute (number 1)) "pier", .nested [.step (.absolute (number 2)) "door"] false,
        .nested [.step (.absolute (number 1)) "post", .step (.relative (number 1)) "gap"] false,
        .step (.relative (number 2)) "wall"]
    let env : Env ℚ := ⟨fun _ => none, none⟩
    let front : Shape ℚ := .withSize .unitBox ⟨9, 3, 1⟩
    let visits := facade.visits Span.ground env ⟨0, front.extent .x⟩
    (facade.layout env .x front).failure = none ∧ (∀ i ∈ facade.toItem.preorder, i.Nonneg env) ∧
    (∀ v ∈ visits, v.item.hasShares = true → v.Fits env) ∧ (∀ v ∈ visits.tail, v.Fits env) ∧
    (∀ b ∈ (facade.layout env .x front).branches, 0 ≤ b.shape.extent .x) ∧
    ((facade.plots env (front.extent .x)).map (·.2)).Pairwise Span.Apart := by
  intro number facade env front visits
  have hdone : (facade.layout env .x front).failure = none := by decide +kernel
  have hsizes : ∀ i ∈ facade.toItem.preorder, i.Nonneg env := by
    simp [facade, ofItems, toItem, Item.preorder, preorderOf, Item.Nonneg, Item.gauge?, number, Expr.eval,
      Marks.value, Marks.plain]
  have hshared : ∀ v ∈ visits, v.item.hasShares = true → v.Fits env := by decide +kernel
  have hnested : ∀ v ∈ visits.tail, v.Fits env := by decide +kernel
  obtain ⟨-, hextents, hapart⟩ := sizes_stay_nonneg facade env .x front hdone hsizes hshared
  exact ⟨hdone, hsizes, hshared, hnested, hextents, hapart hnested⟩

/-- Sizes that are not negative do not keep extents from getting negative, nor spans from overlapping. -/
theorem nonneg_sizes_do_not_suffice :
    let number (x : ℚ) : Expr ℚ := .constant x .plain
    let overfull : Pattern ℚ String :=
      .ofItems [.step (.absolute (number 2)) "a", .step (.relative (number 1)) "b"]
    let spilling : Pattern ℚ String :=
      .ofItems [.nested [.step (.absolute (number 2)) "a"] false, .step (.relative (number 1)) "b"]
    let env : Env ℚ := ⟨fun _ => none, none⟩
    let box : Shape ℚ := .unitBox
    0 ≤ box.extent .x ∧
    (∀ p ∈ [overfull, spilling], ∀ i ∈ p.toItem.preorder, i.Nonneg env) ∧
    (∀ p ∈ [overfull, spilling], (p.layout env .x box).failure = none) ∧
    ¬ (∀ b ∈ (overfull.layout env .x box).branches, 0 ≤ b.shape.extent .x) ∧
    (spilling.layout env .x box).branches = (spilling.plots env (box.extent .x)).map (fun q =>
      ⟨q.1, box.slice .x q.2.start q.2.length⟩) ∧
    ¬ ((spilling.plots env (box.extent .x)).map (·.2)).Pairwise Span.Apart := by
  intro number overfull spilling env box
  refine ⟨by decide +kernel, ?_, by decide +kernel, by decide +kernel,
    branches_layout (by decide +kernel), ?_⟩
  · simp [overfull, spilling, ofItems, toItem, Item.preorder, preorderOf, Item.Nonneg, Item.gauge?, number,
      Expr.eval, Marks.value, Marks.plain]
  · have hplots : (spilling.plots env (box.extent .x)).map (·.2) = [⟨0, 2⟩, ⟨1 / 2, 1 / 2⟩] := by
      decide +kernel
    rw [hplots]
    have hmeet : ¬ Span.Apart (⟨0, 2⟩ : Span ℚ) ⟨1 / 2, 1 / 2⟩ := fun h => h (1 / 2) (by decide +kernel)
    exact fun h => hmeet (List.pairwise_pair.mp h)

end Pattern
end ShapeGrammar
