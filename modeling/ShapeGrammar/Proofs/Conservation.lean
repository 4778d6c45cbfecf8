import Mathlib.Algebra.Order.Group.Multiset
import ShapeGrammar.Proofs.Locality
import ShapeGrammar.Proofs.Ending

/-! Conservation of shapes. Every shape that was ever put on the stack is still there, or is finished,
or was taken off by an operation; whatever is done to a scene keeps this balance of its record, also
what fails half-way. -/
namespace ShapeGrammar
variable {α : Type}

inductive Move (α : Type)
  | push (h : Shape α)
  | pop
  | retire
  | branch (branches : List (Branch α (Successor α)))
  | operate (op : Operation α (Successor α))

def Successor.isOperation : Successor α → Bool
  | symbol _ => false
  | operation _ => true

namespace Scene

/-- All shapes recorded are on the stack, finished or among those removed. -/
def Balanced (c : Scene α) (removed : List (Shape α)) : Prop :=
  (c.record.toList : Multiset (Shape α)) = c.stack + c.finished.toList + removed

def removed (c : Scene α) : Move α → List (Shape α)
  | .pop | .operate _ =>
    match c.pop with
    | .ok (h, _) => [h]
    | .error _ => []
  | .push _ | .retire | .branch _ => []

variable {c : Scene α} {rs : List (Shape α)}

theorem balanced_empty (recording : Bool) : (empty recording : Scene α).Balanced [] := rfl

theorem pop_cases {h : Shape α} {d : Scene α} (hp : c.pop = .ok (h, d)) :
    c.stack = h :: d.stack ∧ d.finished = c.finished ∧ d.record = c.record ∧
      d.recording = c.recording := by
  rw [pop] at hp
  split at hp
  · cases hp
  · next k below hstack =>
    cases hp
    exact ⟨hstack, rfl, rfl, rfl⟩

theorem retire_cases {d : Scene α} (hr : c.retire = .ok d) :
    ∃ h, c.stack = h :: d.stack ∧ d.finished = c.finished.push h ∧ d.record = c.record ∧
      d.recording = c.recording := by
  rw [retire] at hr
  split at hr
  · cases hr
  · next h below hstack =>
    cases hr
    exact ⟨h, hstack, rfl, rfl, rfl⟩

section Balance
variable (hb : c.Balanced rs)
include hb

theorem Balanced.push (hc : c.recording = true) (h : Shape α) : (c.push h).Balanced rs := by
  have hstack : ((c.push h).stack : Multiset (Shape α)) = ↑[h] + ↑c.stack := rfl
  rw [Balanced] at hb ⊢
  rw [record_push, hc, if_pos rfl, finished_push, hstack, ← Multiset.coe_add, hb]
  ac_rfl

theorem Balanced.pushAll (hc : c.recording = true) (hs : List (Shape α)) :
    (c.pushAll hs).Balanced rs := by
  induction hs with
  | nil => exact hb
  | cons h hs ih => exact ih.push (by simpa using hc) h

theorem Balanced.pop {h : Shape α} {d : Scene α} (hp : c.pop = .ok (h, d)) :
    d.Balanced (rs ++ [h]) := by
  obtain ⟨hstack, hfinished, hrecord, -⟩ := pop_cases hp
  have hstack' : (c.stack : Multiset (Shape α)) = ↑[h] + ↑d.stack := by rw [hstack]; rfl
  rw [Balanced] at hb ⊢
  rw [hrecord, hb, hstack', hfinished, ← Multiset.coe_add]
  ac_rfl

theorem Balanced.retire {d : Scene α} (hr : c.retire = .ok d) : d.Balanced rs := by
  obtain ⟨h, hstack, hfinished, hrecord, -⟩ := retire_cases hr
  have hstack' : (c.stack : Multiset (Shape α)) = ↑[h] + ↑d.stack := by rw [hstack]; rfl
  rw [Balanced] at hb ⊢
  rw [hrecord, hb, hstack', hfinished, Array.toList_push, ← Multiset.coe_add]
  ac_rfl

theorem Balanced.length_record :
    c.record.toList.length = c.finished.toList.length + rs.length + c.stack.length := by
  have hcard := congrArg Multiset.card hb
  simp only [Multiset.card_add, Multiset.coe_card] at hcard
  omega

theorem Balanced.finished_le : (c.finished.toList : Multiset (Shape α)) ≤ c.record.toList := by
  rw [Balanced] at hb
  rw [hb, Multiset.le_iff_exists_add]
  exact ⟨c.stack + rs, by ac_rfl⟩

end Balance

variable [Scalar α]

/-- The scene after a move, also after one that fails. -/
def move (g : Grammar α) (c : Scene α) : Move α → Scene α
  | .push h => c.push h
  | .pop =>
    match c.pop with
    | .ok (_, d) => d
    | .error _ => c
  | .retire =>
    match c.retire with
    | .ok d => d
    | .error _ => c
  | .branch bs => (c.enact (.divided bs)).2
  | .operate op => (c.apply g op).2

def after (g : Grammar α) (c : Scene α) (ms : List (Move α)) : Scene α := ms.foldl (move g) c

def removedBy (g : Grammar α) : Scene α → List (Move α) → List (Shape α)
  | _, [] => []
  | c, m :: ms => c.removed m ++ removedBy g (c.move g m) ms

variable {g : Grammar α}

theorem apply_cases (c : Scene α) (g : Grammar α) (op : Operation α (Successor α)) :
    (∃ e, c.pop = .error e ∧ (c.apply g op).2 = c) ∨
      ∃ h d hs, c.pop = .ok (h, d) ∧ (c.apply g op).2 = d.pushAll hs := by
  rw [apply]
  split
  · next e hp => exact .inl ⟨e, hp, rfl⟩
  · next h d hp =>
    refine .inr ?_
    split
    · exact ⟨h, d, [], hp, rfl⟩
    · next effect _ => exact ⟨h, d, effect.shapes, hp, rfl⟩

/-- What a move removes goes over to the shapes removed, and the record goes on. -/
theorem Balanced.move (hb : c.Balanced rs) (hc : c.recording = true) (g : Grammar α) (m : Move α) :
    (c.move g m).Balanced (rs ++ c.removed m) ∧ (c.move g m).recording = true := by
  cases m with
  | push h =>
    rw [removed, List.append_nil]
    exact ⟨hb.push hc h, hc⟩
  | branch bs =>
    rw [removed, List.append_nil]
    exact ⟨hb.pushAll hc _, by simpa [Scene.move, enact] using hc⟩
  | retire =>
    rw [removed, List.append_nil, Scene.move]
    split
    · next d hr =>
      obtain ⟨-, -, -, -, hd⟩ := retire_cases hr
      exact ⟨hb.retire hr, hd.trans hc⟩
    · exact ⟨hb, hc⟩
  | pop =>
    rw [removed, Scene.move]
    split
    · next h d hp =>
      obtain ⟨-, -, -, hd⟩ := pop_cases hp
      exact ⟨hb.pop hp, hd.trans hc⟩
    · rw [List.append_nil]
      exact ⟨hb, hc⟩
  | operate op =>
    rw [removed, Scene.move]
    rcases c.apply_cases g op with ⟨e, hp, happly⟩ | ⟨h, d, hs, hp, happly⟩
    · rw [happly, hp, List.append_nil]
      exact ⟨hb, hc⟩
    · rw [happly, hp]
      obtain ⟨-, -, -, hd⟩ := pop_cases hp
      exact ⟨(hb.pop hp).pushAll (hd.trans hc) hs, by simpa using hd.trans hc⟩

theorem Balanced.after (hb : c.Balanced rs) (hc : c.recording = true) (ms : List (Move α)) :
    (c.after g ms).Balanced (rs ++ c.removedBy g ms) := by
  induction ms generalizing c rs with
  | nil => rwa [removedBy, List.append_nil]
  | cons m ms ih =>
    obtain ⟨hb', hc'⟩ := hb.move hc g m
    rw [removedBy, ← List.append_assoc]
    exact ih hb' hc'

theorem after_append (c : Scene α) (ms ns : List (Move α)) :
    c.after g (ms ++ ns) = (c.after g ms).after g ns :=
  List.foldl_append

theorem removedBy_append (c : Scene α) (ms ns : List (Move α)) :
    c.removedBy g (ms ++ ns) = c.removedBy g ms ++ (c.after g ms).removedBy g ns := by
  induction ms generalizing c with
  | nil => rfl
  | cons m ms ih =>
    rw [List.cons_append, removedBy, removedBy, ih, List.append_assoc]
    rfl

end Scene

variable [Scalar α]

namespace Grammar

/-- What a successor does to the scene; one that is replaced by a body does nothing to it. -/
def moves (g : Grammar α) : Successor α → List (Move α)
  | .symbol name =>
    match g.rule? name with
    | some _ => []
    | none => [.retire]
  | .operation op => [.operate op]

variable {g : Grammar α}

theorem scene_of_act {s : Successor α} {c d : Scene α} {ys : List (Successor α)} (hb : g.body? s = none)
    (ha : g.act s c = .ok (ys, d)) :
    d = c.after g (g.moves s) ∧
      (c.removedBy g (g.moves s)).length = [s].countP Successor.isOperation := by
  obtain ⟨h, below, o, hstack, -⟩ := exists_treat_of_act ha
  cases s with
  | symbol name =>
    have hr : g.rule? name = none := Option.map_eq_none_iff.mp hb
    have hretire : c.retire = .ok d := by
      obtain ⟨d', hd, heq⟩ := map_eq_ok.mp ha
      rw [hd, (Prod.mk.inj heq).2]
    rw [moves, hr]
    exact ⟨by simp [Scene.after, Scene.move, hretire], rfl⟩
  | operation op =>
    have hd : (c.apply g op).2 = d := by
      simp only [act] at ha
      split at ha
      · next heq =>
        cases ha
        rw [heq]
      · cases ha
    have hpop : c.removed (.operate op) = [h] := by simp [Scene.removed, Scene.pop, hstack]
    refine ⟨hd.symm, ?_⟩
    rw [moves, Scene.removedBy, hpop]
    rfl

variable [Numeral α] {a b : State α} {k : Nat}

theorem scene_of_perform {s : Successor α} {agenda : Agenda (Successor α)} {c : Scene α}
    (hp : g.perform s agenda c = .ok b) :
    b.scene = c.after g (g.moves s) ∧
      (c.removedBy g (g.moves s)).length = [s].countP Successor.isOperation := by
  rcases perform_cases hp with ⟨body, hb, rfl⟩ | ⟨hb, ys, d, ha, rfl⟩
  · cases s with
    | operation op => cases hb
    | symbol name =>
      obtain ⟨r, hr, -⟩ := Option.map_eq_some_iff.mp hb
      rw [moves, hr]
      exact ⟨rfl, rfl⟩
  · exact scene_of_act hb ha

theorem Exec.scene_eq (hx : g.Exec a k b) :
    b.scene = a.scene.after g ((g.visits k a).flatMap g.moves) ∧
      (a.scene.removedBy g ((g.visits k a).flatMap g.moves)).length =
        (g.visits k a).countP Successor.isOperation := by
  induction hx with
  | refl a => exact ⟨rfl, rfl⟩
  | @succ a b c k hs ht ih =>
    obtain ⟨s, rest, hn, hp⟩ := step_cases hs
    obtain ⟨hscene, hcount⟩ := scene_of_perform hp
    obtain ⟨hscene', hcount'⟩ := ih
    rw [visits_of_ok hn hp, List.flatMap_cons, Scene.after_append, Scene.removedBy_append, ← hscene]
    refine ⟨hscene', ?_⟩
    rw [List.length_append, hcount, hcount', ← List.countP_append, List.singleton_append]

/-- Whatever is done to a new scene that records, also if it fails, the shapes recorded are those on
the stack, those finished and those taken off, each as often as it was put there. So of the shapes
recorded by a derivation some are finished, and of the others one was taken off by each operation
performed and the rest lies on the stack. -/
theorem shapes_are_conserved (g : Grammar α) :
    (∀ ms, ((Scene.empty true).after g ms).Balanced ((Scene.empty true).removedBy g ms)) ∧
    ∀ (ax : Axiom α) limit fuel d, g.derive? ⟨limit, true⟩ ax fuel = some (.ok d) →
      ∃ c, g.advance (limit.getD fuel) 0 (.start ax true) = .finished c d.steps ∧
        d = ⟨c.finished.toList, c.record.toList, d.steps⟩ ∧
        (d.finished : Multiset (Shape α)) ≤ d.record ∧
        d.record.length = d.finished.length +
          (g.visits d.steps (.start ax true)).countP Successor.isOperation + c.stack.length := by
  refine ⟨fun ms => (Scene.balanced_empty true).after rfl ms, fun ax limit fuel d hd => ?_⟩
  obtain ⟨c, hadv, hdc⟩ := derive?_eq_ok hd
  obtain ⟨k, -, hk, hx⟩ := advance_eq_finished.mp hadv
  obtain rfl : d.steps = k := by omega
  obtain ⟨hscene, hcount⟩ := hx.scene_eq
  have hstart : (State.start ax true).scene.Balanced [] := (Scene.balanced_empty true).push rfl ax.shape
  have hb : c.Balanced _ := hscene ▸ hstart.after rfl _
  refine ⟨c, hadv, hdc, ?_, ?_⟩
  · rw [hdc]
    exact hb.finished_le
  · rw [hdc, ← hcount]
    exact hb.length_record

theorem shapes_are_conserved_halves : ∃ c d,
    halves.derive? ⟨none, true⟩ ⟨"house", .unitBox⟩ 9 = some (.ok d) ∧
    halves.advance 9 0 (.start ⟨"house", .unitBox⟩ true) = .finished c d.steps ∧
    (d.finished : Multiset (Shape Float32)) ≤ d.record ∧
    d.record.length = d.finished.length + 4 + c.stack.length := by
  obtain ⟨-, hruns⟩ := shapes_are_conserved halves
  obtain ⟨d, hd, hcount⟩ : ∃ d, halves.derive? ⟨none, true⟩ ⟨"house", .unitBox⟩ 9 = some (.ok d) ∧
      (halves.visits d.steps (.start ⟨"house", .unitBox⟩ true)).countP Successor.isOperation = 4 :=
    ⟨_, rfl, rfl⟩
  obtain ⟨c, hadv, -, hle, hlength⟩ := hruns _ none 9 d hd
  exact ⟨c, d, hd, hadv, hle, hcount ▸ hlength⟩

end Grammar

end ShapeGrammar
