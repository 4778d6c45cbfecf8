import ShapeGrammar.Proofs.Exact
import ShapeGrammar.Proofs.Branches

/-! Sharing an extent in exact arithmetic. A weight of one is worth what the fixed lengths leave over,
divided by the sum of all weights; so where at least one item takes a share, the lengths add up to the
extent, whatever signs they have. -/
namespace ShapeGrammar
variable {α σ : Type}

def Item.shares : Item α σ → Bool
  | .step (.absolute _) _ => false
  | .step (.relative _) _ | .nested _ _ => true

/-- The length that meets a demand if a weight of one is worth so much. -/
def Demand.length [Scalar α] (rate : α) : Demand α → α
  | fixed v => v
  | share w => rate * w

theorem Item.shares_of_demand [Scalar α] {env : Env α} {i : Item α σ} {d : Demand α}
    (h : i.demand env = .ok d) : d.share?.isSome = i.shares := by
  rcases i with ⟨e | e, s⟩ | ⟨items, repeats⟩
  · obtain ⟨v, -, rfl⟩ := map_eq_ok.mp h
    rfl
  · obtain ⟨w, -, rfl⟩ := map_eq_ok.mp h
    rfl
  · cases h
    rfl

theorem weights_ne_nil [Scalar α] {env : Env α} {items : List (Item α σ)} {ds : List (Demand α)}
    (h : demands env items = .ok ds) (hs : ∃ i ∈ items, i.shares = true) :
    ds.filterMap Demand.share? ≠ [] := by
  induction items generalizing ds with
  | nil => simp at hs
  | cons i is ih =>
    rw [demands, bind_eq_ok] at h
    obtain ⟨d, hd, h⟩ := h
    rw [bind_eq_ok] at h
    obtain ⟨ds', hds, h⟩ := h
    cases h
    rw [List.exists_mem_cons_iff, ← Item.shares_of_demand hd] at hs
    rcases hw : d.share? with _ | w
    · have hne := ih hds (by simpa [hw] using hs)
      rwa [List.filterMap_cons_none hw]
    · rw [List.filterMap_cons_some hw]
      exact List.cons_ne_nil w _

variable [ExactScalar α]

theorem total_eq_sum (xs : List α) : total xs = xs.sum := List.sum_eq_foldl.symm

theorem Demand.sum_length (rate : α) (ds : List (Demand α)) :
    (ds.map (Demand.length rate)).sum =
      (ds.filterMap Demand.fixed?).sum + rate * (ds.filterMap Demand.share?).sum := by
  induction ds with
  | nil => simp
  | cons d ds ih =>
    rw [List.map_cons, List.sum_cons, ih]
    cases d with
    | fixed v =>
      simp only [Demand.length, fixed?, share?, List.filterMap_cons, List.sum_cons]
      ring
    | share w =>
      simp only [Demand.length, fixed?, share?, List.filterMap_cons, List.sum_cons]
      ring

theorem distribute_eq (extent : α) (ds : List (Demand α)) :
    distribute extent ds =
      if (ds.filterMap Demand.share?).isEmpty = false ∧ (ds.filterMap Demand.share?).sum = 0 then
        .error (.divisionByZero "split")
      else .ok (ds.map (Demand.length
        ((extent - (ds.filterMap Demand.fixed?).sum) / (ds.filterMap Demand.share?).sum))) := by
  simp only [distribute, total_eq_sum]
  congr 1
  rw [Bool.and_eq_true, Bool.not_eq_true', Scalar.isZero_iff]

theorem sum_distribute {extent : α} {ds : List (Demand α)} {lengths : List α}
    (h : distribute extent ds = .ok lengths) (hs : ds.filterMap Demand.share? ≠ []) :
    lengths.sum = extent := by
  rw [distribute_eq] at h
  split at h
  · cases h
  · next hweight =>
    cases h
    have hne : (ds.filterMap Demand.share?).sum ≠ 0 :=
      fun hzero => hweight ⟨List.isEmpty_eq_false_iff.mpr hs, hzero⟩
    rw [Demand.sum_length, div_mul_cancel₀ _ hne]
    ring

/-- The lengths of the items of a pattern in which something is shared add up to its extent. -/
theorem sum_allocate {env : Env α} {items : List (Item α σ)} {extent : α} {lengths : List α}
    (h : allocate env items extent = .ok lengths) (hs : ∃ i ∈ items, i.shares = true) :
    lengths.sum = extent := by
  rw [allocate, bind_eq_ok] at h
  obtain ⟨ds, hds, h⟩ := h
  exact sum_distribute h (weights_ne_nil hds hs)

end ShapeGrammar
