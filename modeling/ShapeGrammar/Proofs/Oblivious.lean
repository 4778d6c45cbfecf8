import ShapeGrammar.Proofs.Exact
import ShapeGrammar.Proofs.Configuration
import ShapeGrammar.Proofs.Form

/-! Derivations that look away from the data. Without operations that take shapes apart, no number
ever decides what is done next: two derivations that succeed with grammars of one form go through
successors of one form step by step and put equally many shapes on the stack at each, whatever the
shapes of their axioms, the values in their grammars and the arithmetic are. -/
namespace ShapeGrammar
variable {α β : Type}

/-- The same work left up to the values in it, equally many shapes open and equally many finished. -/
structure State.SameForm (a : State α) (b : State β) : Prop where
  agenda : a.agenda.map Successor.form = b.agenda.map Successor.form
  depth : a.scene.depth = b.scene.depth
  finished : a.scene.finished.toList.length = b.scene.finished.toList.length

namespace State.SameForm
variable {a a₁ : State α} {b b₁ : State β} {s : Successor α} {t : Successor β}
  {rest : Agenda (Successor α)} {rest' : Agenda (Successor β)}

theorem start (name : String) (h : Shape α) (k : Shape β) (recording : Bool) :
    (State.start ⟨name, h⟩ recording).SameForm (State.start ⟨name, k⟩ recording) where
  agenda := by simp [State.start, Agenda.map, Agenda.ofList, Successor.form_symbol]
  depth := rfl
  finished := rfl

theorem symm (hab : a.SameForm b) : b.SameForm a := ⟨hab.agenda.symm, hab.depth.symm, hab.finished.symm⟩

theorem next? (hab : a.SameForm b) :
    a.agenda.next?.map (fun p => (p.1.form, p.2.map Successor.form)) =
      b.agenda.next?.map fun p => (p.1.form, p.2.map Successor.form) := by
  rw [← Agenda.next?_map, ← Agenda.next?_map, hab.agenda]

theorem next?_eq_none (hab : a.SameForm b) (hn : a.agenda.next? = none) : b.agenda.next? = none := by
  have h := hab.next?
  rw [hn, Option.map_none, eq_comm, Option.map_eq_none_iff] at h
  exact h

theorem of_next? (hab : a.SameForm b) (hn : a.agenda.next? = some (s, rest))
    (hn' : b.agenda.next? = some (t, rest')) :
    s.form = t.form ∧ rest.map Successor.form = rest'.map Successor.form := by
  have h := hab.next?
  rw [hn, hn', Option.map_some, Option.map_some, Option.some.injEq] at h
  exact Prod.mk.inj h

/-- Successors of one form leave equally many new shapes between scenes of equal depth. -/
theorem length_pushed (hab : a.SameForm b) (hab₁ : a₁.SameForm b₁)
    (hn : a.agenda.next? = some (s, rest)) (hn' : b.agenda.next? = some (t, rest')) :
    (a.pushed a₁).length = (b.pushed b₁).length := by
  obtain ⟨hst, -⟩ := hab.of_next? hn hn'
  have hdepth := hab.depth
  have hdepth₁ := hab₁.depth
  rw [State.pushed, State.pushed, hn, hn']
  cases s with
  | symbol name =>
    cases t with
    | symbol name' => rfl
    | operation op' => simp [Successor.form_symbol, Successor.form_operation] at hst
  | operation op =>
    cases t with
    | symbol name' => simp [Successor.form_symbol, Successor.form_operation] at hst
    | operation op' =>
      simp only [Scene.depth] at hdepth hdepth₁ ⊢
      rw [List.length_reverse, List.length_reverse, List.length_take, List.length_take, hdepth, hdepth₁]

end State.SameForm

variable [Scalar α] [Numeral α] [Scalar β] [Numeral β]

namespace Grammar

section Sources

/-- The shapes put on the stack by the next steps, each with the successor that it comes from. -/
def sources (g : Grammar α) : Nat → State α → List (Successor α × Shape α)
  | 0, _ => []
  | n + 1, a =>
    match a.agenda.next?, g.step a with
    | some (s, _), some (.ok b) => (a.pushed b).map (s, ·) ++ g.sources n b
    | _, _ => []

variable {g : Grammar α} {a b : State α} {s : Successor α} {rest : Agenda (Successor α)} {k : Nat}

theorem sources_of_step (hn : a.agenda.next? = some (s, rest)) (hs : g.step a = some (.ok b)) (n : Nat) :
    g.sources (n + 1) a = (a.pushed b).map (s, ·) ++ g.sources n b := by
  simp only [sources, hn, hs]

theorem Exec.sources_snd (hx : g.Exec a k b) : (g.sources k a).map Prod.snd = g.pushes k a := by
  induction hx with
  | refl => rfl
  | succ hs _ ih =>
    obtain ⟨s, rest, hn, -⟩ := step_cases hs
    rw [sources_of_step hn hs, pushes_of_step hs, List.map_append, List.map_map, ih]
    congr 1
    exact List.map_id _

theorem Exec.record_eq_sources {ax : Axiom α} {recording : Bool}
    (hx : g.Exec (.start ax recording) k b) :
    b.scene.record.toList =
      if recording then ax.shape :: (g.sources k (.start ax recording)).map Prod.snd else [] := by
  obtain ⟨fs, hadds⟩ := hx.adds
  rw [hadds.record, hx.sources_snd]
  cases recording <;> simp [State.start, Scene.push, Scene.empty]

end Sources

variable {g : Grammar α} {g' : Grammar β} {a a₁ : State α} {b b₁ : State β} {k k' : Nat}

theorem sameForm_of_step (hg : g.form = g'.form)
    (ha : ∀ s ∈ a.agenda.toList, s.UsesOnly (·.takesApart = false)) (hab : a.SameForm b)
    (hs : g.step a = some (.ok a₁)) (hs' : g'.step b = some (.ok b₁)) : a₁.SameForm b₁ := by
  obtain ⟨s, rest, hn, hp⟩ := step_cases hs
  obtain ⟨t, rest', hn', hp'⟩ := step_cases hs'
  obtain ⟨hst, hrest⟩ := hab.of_next? hn hn'
  have hbody := body?_same_form hg hst
  have huses : s.UsesOnly (·.takesApart = false) := ha s (Agenda.mem_of_next? hn)
  rcases perform_cases hp with ⟨u, hu, rfl⟩ | ⟨hu, ys, c, hact, rfl⟩
  · rcases perform_cases hp' with ⟨u', hu', rfl⟩ | ⟨hu', -, -, -, -⟩
    · rw [hu, hu', Option.map_some, Option.map_some, Option.some.injEq] at hbody
      refine ⟨?_, hab.depth, hab.finished⟩
      rw [Agenda.map_unfold, Agenda.map_unfold, hrest, hbody]
    · simp [hu, hu'] at hbody
  · rcases perform_cases hp' with ⟨u', hu', rfl⟩ | ⟨hu', ys', c', hact', rfl⟩
    · simp [hu, hu'] at hbody
    · obtain ⟨h, below, o, hstack, ho, rfl, hturn⟩ := exists_treat_of_act hact
      obtain ⟨h', below', o', hstack', ho', rfl, hturn'⟩ := exists_treat_of_act hact'
      obtain ⟨hyielded, hopened, hfinished⟩ := treat_same_form hst huses ho ho'
      have hdepth := hab.depth
      simp only [Scene.depth, hstack, hstack', List.length_cons, Nat.add_right_cancel_iff] at hdepth
      refine ⟨?_, ?_, ?_⟩
      · rw [Agenda.map_yield, Agenda.map_yield, hrest, hyielded]
      · simp only [Scene.depth, hturn.stack, hturn'.stack, List.length_append, hopened, hdepth]
      · simp only [hturn.finished, hturn'.finished, List.length_append, hfinished, hab.finished]

/-- Two runs that come to their ends side by side. -/
structure Parallel (g : Grammar α) (g' : Grammar β) (a : State α) (k : Nat) (a₁ : State α) (b : State β)
    (k' : Nat) (b₁ : State β) : Prop where
  steps : k = k'
  last : a₁.SameForm b₁
  visits : (g.visits k a).map Successor.form = (g'.visits k' b).map Successor.form
  sources : (g.sources k a).map (·.1.form) = (g'.sources k' b).map (·.1.form)

theorem Exec.parallel (hg : g.form = g'.form) (huses : g.UsesOnly (·.takesApart = false))
    (hx : g.Exec a k a₁) (hx' : g'.Exec b k' b₁) (hab : a.SameForm b)
    (ha : ∀ s ∈ a.agenda.toList, s.UsesOnly (·.takesApart = false)) (hend : a₁.agenda.next? = none)
    (hend' : b₁.agenda.next? = none) : Parallel g g' a k a₁ b k' b₁ := by
  -- along the first run; neither can end before the other, as both always have as much left to do
  induction hx generalizing b k' with
  | refl a =>
    cases hx' with
    | refl => exact ⟨rfl, hab, rfl, rfl⟩
    | succ hs' _ =>
      obtain ⟨t, rest', hn', -⟩ := step_cases hs'
      rw [hab.next?_eq_none hend] at hn'
      cases hn'
  | @succ a c a₁ k hs _ ih =>
    obtain ⟨s, rest, hn, hp⟩ := step_cases hs
    cases hx' with
    | refl =>
      rw [hab.symm.next?_eq_none hend'] at hn
      cases hn
    | @succ _ c' _ k' hs' hx' =>
      obtain ⟨t, rest', hn', hp'⟩ := step_cases hs'
      obtain ⟨hst, -⟩ := hab.of_next? hn hn'
      have hcc : c.SameForm c' := sameForm_of_step hg ha hab hs hs'
      have hc := (huses.inherits_true.step ⟨ha, a.scene.all_true⟩ hs).agenda
      obtain ⟨rfl, hlast, hvisits, hsources⟩ := ih hx' hcc hc hend
      refine ⟨rfl, hlast, ?_, ?_⟩
      · rw [visits_of_ok hn hp, visits_of_ok hn' hp', List.map_cons, List.map_cons, hst, hvisits]
      · rw [sources_of_step hn hs, sources_of_step hn' hs', List.map_append, List.map_append, hsources,
          List.map_map, List.map_map]
        congr 1
        simp [Function.comp_def, hst, hab.length_pushed hcc hn hn']

/-- Two derivations without a limit that succeed, from one symbol with grammars of one form in which
nothing takes shapes apart, do as many steps, come to successors of one form in the same order,
finish as many shapes and record as many, and each shape recorded comes from a successor of the same
form in both. -/
theorem form_decides_derivation (hg : g.form = g'.form) (huses : g.UsesOnly (·.takesApart = false))
    {name : String} {h : Shape α} {h' : Shape β} {recording : Bool} {fuel fuel' : Nat}
    {d : Derivation α} {d' : Derivation β}
    (hd : g.derive? ⟨none, recording⟩ ⟨name, h⟩ fuel = some (.ok d))
    (hd' : g'.derive? ⟨none, recording⟩ ⟨name, h'⟩ fuel' = some (.ok d')) :
    let a : State α := .start ⟨name, h⟩ recording
    let b : State β := .start ⟨name, h'⟩ recording
    d.steps = d'.steps ∧
    (g.visits d.steps a).map Successor.form = (g'.visits d'.steps b).map Successor.form ∧
    d.finished.length = d'.finished.length ∧ d.record.length = d'.record.length ∧
    d.record = (if recording then h :: (g.sources d.steps a).map Prod.snd else []) ∧
    d'.record = (if recording then h' :: (g'.sources d'.steps b).map Prod.snd else []) ∧
    (g.sources d.steps a).map (·.1.form) = (g'.sources d'.steps b).map (·.1.form) := by
  intro a b
  obtain ⟨c, hx, hdc⟩ := exec_of_derive? hd
  obtain ⟨c', hx', hdc'⟩ := exec_of_derive? hd'
  have huse : ∀ s ∈ a.agenda.toList, s.UsesOnly (·.takesApart = false) :=
    List.forall_mem_singleton.mpr (Successor.usesOnly_symbol name)
  have hparallel : Parallel g g' a d.steps ⟨.ofList [], c⟩ b d'.steps ⟨.ofList [], c'⟩ :=
    Exec.parallel hg huses hx hx' (.start name h h' recording) huse rfl rfl
  have hrecord : d.record = if recording then h :: (g.sources d.steps a).map Prod.snd else [] := by
    rw [hdc]
    exact hx.record_eq_sources
  have hrecord' : d'.record = if recording then h' :: (g'.sources d'.steps b).map Prod.snd else [] := by
    rw [hdc']
    exact hx'.record_eq_sources
  refine ⟨hparallel.steps, hparallel.visits, ?_, ?_, hrecord, hrecord', hparallel.sources⟩
  · rw [hdc, hdc']
    exact hparallel.last.finished
  · have hlength := congrArg List.length hparallel.sources
    rw [List.length_map, List.length_map] at hlength
    rw [hrecord, hrecord']
    cases recording <;> simp [hlength]

/-- A row of houses of a width, each with a yard that takes a share of what is left. -/
def row (width : ℚ) : Grammar ℚ :=
  let number : Expr ℚ := .constant width .plain
  { statements :=
      [.attr "gap" width,
        .rule ⟨"row", [.operation (.split .x none (.ofItems
          [.step (.absolute number) (.symbol "house"), .step (.relative (.attr "gap" .plain)) (.symbol "yard"),
            .nested [.step (.absolute number) (.operation (.scale ⟨number, number, number⟩))] false]))]⟩,
        .rule ⟨"house", [.operation (.translate ⟨number, number, number⟩), .symbol "roof"]⟩] }

theorem form_decides_derivation_row :
    (row 3).form = (row (-2)).form ∧ (row 3).UsesOnly (·.takesApart = false) ∧
    ∃ d d', (row 3).derive? ⟨none, true⟩ ⟨"row", .unitBox⟩ 9 = some (.ok d) ∧
      (row (-2)).derive? ⟨none, true⟩ ⟨"row", .unitQuad⟩ 8 = some (.ok d') ∧ d.finished.length = 2 ∧
      d.steps = d'.steps ∧ d.finished.length = d'.finished.length ∧ d.record.length = d'.record.length := by
  have hform : (row 3).form = (row (-2)).form := rfl
  have huses : (row 3).UsesOnly (·.takesApart = false) := by
    have hrules : (row 3).rules = [⟨"row", _⟩, ⟨"house", _⟩] := rfl
    simp [UsesOnly, hrules, Operation.parts, Operation.takesApart, leavesOf, Item.leaves, Pattern.ofItems]
  obtain ⟨d, hd, hlength⟩ := exists_derive?_of_map (row 3) ⟨none, true⟩ ⟨"row", .unitBox⟩ 9
    (·.finished.length) 2 (by decide +kernel)
  obtain ⟨d', hd', -⟩ := exists_derive?_of_map (row (-2)) ⟨none, true⟩ ⟨"row", .unitQuad⟩ 8
    (·.finished.length) 2 (by decide +kernel)
  obtain ⟨hsteps, -, hfinished, hrecord, -⟩ := form_decides_derivation hform huses hd hd'
  exact ⟨hform, huses, d, d', hd, hd', hlength, hsteps, hfinished, hrecord⟩

end Grammar
end ShapeGrammar
