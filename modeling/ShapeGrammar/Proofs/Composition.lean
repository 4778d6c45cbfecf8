import Mathlib.Algebra.GroupWithZero.Nat
import Mathlib.Data.List.Forall2
import ShapeGrammar.Proofs.Locality

/-! Splits as compositions. The branches of a split are derived one after the other, each as if it
were alone, so the shapes a split finishes are those of its branches in order. What is written
behind the split in the same body goes to the first branch before any branch is derived. -/
namespace ShapeGrammar
variable {α : Type} [Scalar α]

namespace Grammar

/-- Operations that replace a shape by one shape each, reading the shape they are applied to. -/
inductive Reshapes (g : Grammar α) :
    List (Operation α (Successor α)) → Shape α → Shape α → Prop
  | nil (h) : Reshapes g [] h h
  | cons {op ops h k l} : op.apply ⟨g.attr?, some h⟩ h = .ok (.replaced k) → Reshapes g ops k l →
      Reshapes g (op :: ops) h l

variable [Numeral α]

/-- A branch derived alone, on a stack of its shape only, until no shape is left. -/
def Completes (g : Grammar α) (b : Branch α (Successor α)) (finished : List (Shape α)) (steps : Nat) :
    Prop :=
  ∃ recording fuel c, g.advance fuel 0 ⟨.ofList [b.successor], (Scene.empty recording).push b.shape⟩ =
    .finished c steps ∧ c.stack = [] ∧ c.finished.toList = finished

variable {g : Grammar α} {s : Successor α} {c d : Scene α} {h k : Shape α} {below : List (Shape α)}

section Body
variable (body ys w : List (Successor α))

theorem exec_act {zs : List (Successor α)} (hb : g.body? s = none) (ha : g.act s c = .ok (zs, d)) :
    g.Exec ⟨⟨s :: body, ys, w⟩, c⟩ 1 ⟨⟨body, ys ++ zs, w⟩, d⟩ :=
  .single (congrArg some (perform_of_act hb ha))

theorem exec_replaced {op : Operation α (Successor α)}
    (hop : op.apply ⟨g.attr?, some h⟩ h = .ok (.replaced k)) (hc : c.stack = h :: below) :
    ∃ d ps, g.Exec ⟨⟨.operation op :: body, ys, w⟩, c⟩ 1 ⟨⟨body, ys, w⟩, d⟩ ∧
      d.stack = k :: below ∧ c.Adds [] ps d := by
  have ho : g.treat (.operation op) h = .ok ⟨[], [k], []⟩ :=
    treat_operation.mpr ⟨_, hop, rfl⟩
  obtain ⟨d, ha, ht⟩ := act_of_treat hc ho
  have hx := exec_act body ys w rfl ha
  rw [List.append_nil] at hx
  exact ⟨d, _, hx, ht.stack, ht.toAdds⟩

theorem exec_divided {op : Operation α (Successor α)} {bs : List (Branch α (Successor α))}
    (hop : op.apply ⟨g.attr?, some h⟩ h = .ok (.divided bs)) (hc : c.stack = h :: below) :
    ∃ d ps, g.Exec ⟨⟨.operation op :: body, ys, w⟩, c⟩ 1
        ⟨⟨body, ys ++ bs.map (·.successor), w⟩, d⟩ ∧
      d.stack = bs.map (·.shape) ++ below ∧ c.Adds [] ps d := by
  have ho : g.treat (.operation op) h = .ok ⟨bs.map (·.successor), bs.map (·.shape), []⟩ :=
    treat_operation.mpr ⟨_, hop, rfl⟩
  obtain ⟨d, ha, ht⟩ := act_of_treat hc ho
  exact ⟨d, _, exec_act body ys w rfl ha, ht.stack, ht.toAdds⟩

theorem Reshapes.exec {ops : List (Operation α (Successor α))} (hr : g.Reshapes ops h k)
    (hc : c.stack = h :: below) :
    ∃ d ps, g.Exec ⟨⟨ops.map .operation ++ body, ys, w⟩, c⟩ ops.length ⟨⟨body, ys, w⟩, d⟩ ∧
      d.stack = k :: below ∧ c.Adds [] ps d := by
  induction hr generalizing c with
  | nil h => exact ⟨c, [], .refl _, hc, .refl c⟩
  | @cons op ops h k l hop hops ih =>
    obtain ⟨d, ps, hx, hd, hcd⟩ := exec_replaced (ops.map .operation ++ body) ys w hop hc
    obtain ⟨e, qs, hy, he, hde⟩ := ih hd
    refine ⟨e, ps ++ qs, ?_, he, hcd.trans hde⟩
    rw [List.length_cons, Nat.add_comm]
    exact hx.trans hy

end Body

theorem exec_split_body {name : String} {r : Rule α} {before after : List (Operation α (Successor α))}
    {op : Operation α (Successor α)} {h₀ h₁ : Shape α} {b : Branch α (Successor α)}
    {bs : List (Branch α (Successor α))} (hrule : g.rule? name = some r)
    (hbody : r.successors = before.map .operation ++ .operation op :: after.map .operation)
    (hbefore : g.Reshapes before h h₀)
    (hop : op.apply ⟨g.attr?, some h₀⟩ h₀ = .ok (.divided (b :: bs)))
    (hafter : g.Reshapes after b.shape h₁) (hc : c.stack = h :: below) :
    ∃ d ps, g.Exec ⟨.ofList [.symbol name], c⟩ (before.length + after.length + 2)
        ⟨⟨[], b.successor :: bs.map (·.successor), []⟩, d⟩ ∧
      d.stack = h₁ :: bs.map (·.shape) ++ below ∧ c.Adds [] ps d := by
  have hb : g.body? (.symbol name) = some r.successors := by rw [body?, hrule]; rfl
  have hu : g.Exec ⟨.ofList [.symbol name], c⟩ 1 ⟨⟨r.successors ++ [], [], []⟩, c⟩ :=
    .single (congrArg some (perform_of_body hb))
  rw [List.append_nil, hbody] at hu
  obtain ⟨c₁, ps₁, hx₁, hc₁, ha₁⟩ := hbefore.exec (.operation op :: after.map .operation) [] [] hc
  obtain ⟨c₂, ps₂, hx₂, hc₂, ha₂⟩ := exec_divided (after.map .operation) [] [] hop hc₁
  obtain ⟨c₃, ps₃, hx₃, hc₃, ha₃⟩ := hafter.exec [] (b.successor :: bs.map (·.successor)) [] hc₂
  rw [List.append_nil] at hx₃
  refine ⟨c₃, _, ?_, hc₃, (ha₁.trans ha₂).trans ha₃⟩
  have hx := ((hu.trans hx₁).trans hx₂).trans hx₃
  rwa [show 1 + before.length + 1 + after.length = before.length + after.length + 2 by omega] at hx

theorem Completes.exec (w : List (Successor α)) {b : Branch α (Successor α)} {fs : List (Shape α)}
    {n : Nat} (hb : g.Completes b fs n) (hc : c.stack = b.shape :: below) :
    ∃ d ps, g.Exec ⟨.ofList (b.successor :: w), c⟩ n ⟨.ofList w, d⟩ ∧ d.stack = below ∧
      c.Adds fs ps d := by
  obtain ⟨recording, fuel, c₁, hrun, hnil, rfl⟩ := hb
  obtain ⟨m, -, rfl, hx⟩ := advance_eq_finished.mp hrun
  obtain ⟨d, fs, ps, hy, hd, hadd, hcd⟩ := hx.over hc
  have hfs : c₁.finished.toList = fs := by simpa [Scene.empty] using hadd.finished
  refine ⟨d, ps, ?_, ?_, hfs ▸ hcd⟩
  · rw [Nat.zero_add]
    exact hy.queue w
  · simpa [hnil] using hd

theorem exec_branches (w : List (Successor α)) {bs : List (Branch α (Successor α))} {results : List (List (Shape α) × Nat)}
    (hruns : List.Forall₂ (fun b r => g.Completes b r.1 r.2) bs results)
    (hc : c.stack = bs.map (·.shape) ++ below) :
    ∃ d ps, g.Exec ⟨.ofList (bs.map (·.successor) ++ w), c⟩ (results.map Prod.snd).sum ⟨.ofList w, d⟩ ∧
      d.stack = below ∧ c.Adds (results.map Prod.fst).flatten ps d := by
  induction hruns generalizing c with
  | nil => exact ⟨c, [], .refl _, hc, .refl c⟩
  | @cons b r bs results hb hbs ih =>
    obtain ⟨d, ps, hx, hd, hcd⟩ := hb.exec (bs.map (·.successor) ++ w) hc
    obtain ⟨e, qs, hy, he, hde⟩ := ih hd
    exact ⟨e, ps ++ qs, hx.trans hy, he, hcd.trans hde⟩

/-- A run between two bodies goes on alike however the work left is divided up. -/
theorem Exec.of_ofList {ys w : List (Successor α)} {b : State α} {n : Nat} (hx : g.Exec ⟨.ofList (ys ++ w), c⟩ n b) :
    ∃ agenda, g.Exec ⟨⟨[], ys, w⟩, c⟩ n ⟨agenda, b.scene⟩ ∧ agenda.toList = b.agenda.toList := by
  cases hx with
  | refl => exact ⟨_, .refl _, rfl⟩
  | succ hs ht => exact ⟨_, .succ (step_congr.trans hs) ht, rfl⟩

/-- A rule whose body reshapes the shape, splits it and goes on to reshape the first branch, derived
on any stack with the shape on top. If each branch alone is derived to an empty stack, the first one
in its new shape, the whole finishes the shapes of all branches in order and leaves the stack below
alone; and when it is the turn of a branch, its own shape and those of its right neighbours are on
the stack as the body left them. -/
theorem split_composes (g : Grammar α) {name : String} {r : Rule α}
    {before after : List (Operation α (Successor α))} {op : Operation α (Successor α)}
    {h h₀ h₁ : Shape α} {b : Branch α (Successor α)} {bs : List (Branch α (Successor α))}
    {results : List (List (Shape α) × Nat)} {c : Scene α} {below : List (Shape α)}
    (hrule : g.rule? name = some r)
    (hbody : r.successors = before.map .operation ++ .operation op :: after.map .operation)
    (hbefore : g.Reshapes before h h₀)
    (hop : op.apply ⟨g.attr?, some h₀⟩ h₀ = .ok (.divided (b :: bs)))
    (hafter : g.Reshapes after b.shape h₁)
    (hruns : List.Forall₂ (fun b r => g.Completes b r.1 r.2) (⟨b.successor, h₁⟩ :: bs) results)
    (hc : c.stack = h :: below) (n : Nat) :
    (∃ fuel d, g.advance fuel n ⟨.ofList [.symbol name], c⟩ =
        .finished d (n + (before.length + after.length + 2) + (results.map Prod.snd).sum) ∧
      d.stack = below ∧ d.finished.toList = c.finished.toList ++ (results.map Prod.fst).flatten) ∧
    ∀ i, ∃ st, g.Exec ⟨.ofList [.symbol name], c⟩
        (before.length + after.length + 2 + ((results.take i).map Prod.snd).sum) st ∧
      st.agenda.toList = (b.successor :: bs.map (·.successor)).drop i ∧
      st.scene.stack = (h₁ :: bs.map (·.shape)).drop i ++ below ∧
      st.scene.finished.toList = c.finished.toList ++ ((results.take i).map Prod.fst).flatten := by
  obtain ⟨d, ps, hx, hd, hcd⟩ := exec_split_body hrule hbody hbefore hop hafter hc
  have hturn (i : Nat) : ∃ st, g.Exec ⟨.ofList [.symbol name], c⟩
        (before.length + after.length + 2 + ((results.take i).map Prod.snd).sum) st ∧
      st.agenda.toList = (b.successor :: bs.map (·.successor)).drop i ∧
      st.scene.stack = (h₁ :: bs.map (·.shape)).drop i ++ below ∧
      st.scene.finished.toList = c.finished.toList ++ ((results.take i).map Prod.fst).flatten := by
    -- the branches in front of the i-th are derived on top of the shapes of the others
    let branches : List (Branch α (Successor α)) := ⟨b.successor, h₁⟩ :: bs
    have hstack : d.stack = (branches.take i).map (·.shape) ++
        ((branches.drop i).map (·.shape) ++ below) := by
      rw [hd, ← List.append_assoc, ← List.map_append, List.take_append_drop]
      rfl
    obtain ⟨e, qs, hy, he, hde⟩ := exec_branches ((branches.drop i).map (·.successor))
      (List.forall₂_take i hruns) hstack
    rw [← List.map_append, List.take_append_drop] at hy
    obtain ⟨agenda, hz, hagenda⟩ := Exec.of_ofList (w := []) (by rwa [List.append_nil])
    refine ⟨_, hx.trans hz, ?_, ?_, ?_⟩
    · rw [hagenda, Agenda.toList_ofList, List.map_drop]
      rfl
    · rw [he, List.map_drop]
      rfl
    · exact (hcd.trans hde).finished
  refine ⟨?_, hturn⟩
  obtain ⟨st, hst, hagenda, hstack, hfinished⟩ := hturn results.length
  have hlen : (b.successor :: bs.map (·.successor)).length ≤ results.length :=
    Nat.le_of_eq (by simpa using hruns.length_eq)
  have hlen' : (h₁ :: bs.map (·.shape)).length ≤ results.length := by simpa using hlen
  rw [List.drop_eq_nil_of_le hlen] at hagenda
  rw [List.drop_eq_nil_of_le hlen', List.nil_append] at hstack
  rw [List.take_length] at hst hfinished
  have hnil : st.agenda = .ofList [] := by
    rw [Agenda.eq_ofList_nil_iff, Agenda.next?_eq_none_iff, hagenda]
  refine ⟨_, st.scene, advance_eq_finished.mpr ⟨_, Nat.le_refl _, Nat.add_assoc .., ?_⟩, hstack, hfinished⟩
  rw [← hnil]
  exact hst

theorem split_composes_halves :
    let c : Scene Float32 := ((Scene.empty true).push .unitQuad).push .unitBox
    ∃ fuel d left right, halves.advance fuel 0 ⟨.ofList [.symbol "house"], c⟩ = .finished d 8 ∧
      d.stack = [.unitQuad] ∧ d.finished.toList = [left, right] := by
  intro c
  have hrule : halves.rule? "house" = some ⟨"house", [.operation lift, .operation halve, .operation level]⟩ :=
    rfl
  obtain ⟨h, hlift⟩ : ∃ h, halves.Reshapes [lift] .unitBox h := ⟨_, .cons rfl (.nil _)⟩
  have hlevel (h : Shape Float32) : halves.Reshapes [level] h (h.withSize ⟨1, 1, 1⟩) := .cons rfl (.nil _)
  obtain ⟨l, r, hop⟩ : ∃ l r, halve.apply ⟨halves.attr?, some h⟩ h =
      .ok (.divided [⟨.symbol "left", l⟩, ⟨.symbol "right", r⟩]) := ⟨_, _, rfl⟩
  have hleft : halves.Completes ⟨.symbol "left", l.withSize ⟨1, 1, 1⟩⟩ [l.withSize ⟨1, 1, 1⟩] 1 :=
    ⟨true, 1, _, rfl, rfl, rfl⟩
  have hright : halves.Completes ⟨.symbol "right", r⟩ [r.withSize ⟨1, 1, 1⟩] 3 :=
    ⟨true, 3, _, rfl, rfl, rfl⟩
  have hruns : List.Forall₂ (fun b r => halves.Completes b r.1 r.2) _ [([_], 1), ([_], 3)] :=
    .cons hleft (.cons hright .nil)
  obtain ⟨⟨fuel, d, hd, hstack, hfinished⟩, -⟩ := split_composes halves hrule rfl hlift hop
    (hlevel l) hruns (c := c) rfl 0
  exact ⟨fuel, d, _, _, hd, hstack, hfinished⟩

end Grammar
end ShapeGrammar
