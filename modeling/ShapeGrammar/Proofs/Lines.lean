import ShapeGrammar.Proofs.Legible

/-! A grammar is read from its text line by line: a line is an attribute or a rule by what stands behind
its first word, and the successors of a rule are told apart by the blanks in front of them. So the text
of a legible grammar determines it up to the canonical form of its expressions, and all its runs. -/
namespace ShapeGrammar

/-- The names that are declared are names, the values are finite, and all successors are legible. -/
def Statement.legible : Statement Float32 → Bool
  | attr name v => isName name && v.isFinite
  | rule r => isName r.predecessor && r.successors.all Successor.legible

def Grammar.legible (g : Grammar Float32) : Bool := g.statements.all Statement.legible

def Statement.canonical : Statement Float32 → Statement Float32 := translate Successor.canonical id

def successorsLine (ss : List (Successor Float32)) (r : List Char) : List Char :=
  (String.join (ss.map (" " ++ ·.text))).toList ++ '\n' :: r

theorem successorsLine_nil (r : List Char) : successorsLine [] r = '\n' :: r := rfl

theorem successorsLine_cons (s : Successor Float32) (ss : List (Successor Float32)) (r : List Char) :
    successorsLine (s :: ss) r = ' ' :: (s.text.toList ++ successorsLine ss r) := by
  simp [successorsLine]

theorem ends_successorsLine (ss : List (Successor Float32)) (r : List Char) : Ends (successorsLine ss r) := by
  cases ss with
  | nil => exact ends_cons (.inr rfl) r
  | cons s ss =>
    rw [successorsLine_cons]
    exact ends_cons (.inl rfl) _

theorem successorsLine_unique {ss ss' : List (Successor Float32)} (hs : ∀ s ∈ ss, s.legible = true)
    (hs' : ∀ s ∈ ss', s.legible = true) {r r' : List Char}
    (h : successorsLine ss r = successorsLine ss' r') :
    ss.map Successor.canonical = ss'.map Successor.canonical ∧ r = r' := by
  induction ss generalizing ss' with
  | nil =>
    cases ss' with
    | nil => exact ⟨rfl, (List.cons.inj h).2⟩
    | cons s' ss' =>
      rw [successorsLine_nil, successorsLine_cons] at h
      cases (List.cons.inj h).1
  | cons s ss ih =>
    rw [List.forall_mem_cons] at hs
    rw [successorsLine_cons] at h
    cases ss' with
    | nil => cases (List.cons.inj h).1
    | cons s' ss' =>
      rw [List.forall_mem_cons] at hs'
      rw [successorsLine_cons] at h
      obtain ⟨hc, hrest⟩ := s.unique hs.1 s' hs'.1 _ _ (ends_successorsLine ss r)
        (ends_successorsLine ss' r') (List.cons.inj h).2
      obtain ⟨hcs, rfl⟩ := ih hs.2 hs'.2 hrest
      exact ⟨by rw [List.map_cons, List.map_cons, hc, hcs], rfl⟩

theorem value_unique {v w : Float32} (hv : v.isFinite = true) (hw : w.isFinite = true) {r r' : List Char}
    (h : (Binary32.text v).toList ++ '\n' :: r = (Binary32.text w).toList ++ '\n' :: r') :
    v = w ∧ r = r' := by
  have hv' : (Expr.constant v .plain).legible = true := hv
  have hw' : (Expr.constant w .plain).legible = true := hw
  have hstops : ∀ r, Stops ('\n' :: r) := fun r => (ends_cons (.inr rfl) r).stops
  obtain ⟨hc, hrest⟩ := Expr.unique hv' hw' (hstops r) (hstops r') (by simp) (by simp) h
  exact ⟨(Expr.constant.inj hc).1, (List.cons.inj hrest).2⟩

namespace Statement

/-- The first word of a line: a keyword or the symbol that a rule is for. -/
def head : Statement Float32 → String
  | attr _ _ => "attr"
  | rule r => r.predecessor

/-- The rest of a line behind its first word and a blank, and what follows the line. -/
def rest : Statement Float32 → List Char → List Char
  | attr name v, r => name.toList ++ ' ' :: '=' :: ' ' :: ((Binary32.text v).toList ++ '\n' :: r)
  | rule p, r => '-' :: '-' :: '>' :: successorsLine p.successors r

theorem toList_text_append (s : Statement Float32) (r : List Char) :
    s.text.toList ++ '\n' :: r = s.head.toList ++ ' ' :: s.rest r := by
  cases s with
  | attr name v => simp [text, head, rest, Numeral.text]
  | rule p => simp [text, Rule.text, head, rest, successorsLine]

theorem isName_head {s : Statement Float32} (hs : s.legible = true) : isName s.head = true := by
  have hkeyword : isName "attr" = true := by decide +kernel
  cases s with
  | attr name v => exact hkeyword
  | rule p =>
    simp only [legible, Bool.and_eq_true] at hs
    exact hs.1

theorem name_ne_arrow {name : String} (h : isName name = true) (r cs : List Char) :
    name.toList ++ r ≠ '-' :: cs := by
  obtain ⟨c, cs', hc, -, hw⟩ := exists_name h
  rw [hc]
  intro heq
  obtain rfl : c = '-' := (List.cons.inj heq).1
  rcases hw '-' List.mem_cons_self with h | h <;> revert h <;> decide

/-- Up to its canonical form, a statement is the only one that a text can begin with up to the end of
its line. -/
theorem unique {s s' : Statement Float32} (hs : s.legible = true) (hs' : s'.legible = true)
    {r r' : List Char} (h : s.text.toList ++ '\n' :: r = s'.text.toList ++ '\n' :: r') :
    s.canonical = s'.canonical ∧ r = r' := by
  rw [toList_text_append, toList_text_append] at h
  obtain ⟨hhead, hrest⟩ := word_unique (isWordChar_of_isName (isName_head hs))
    (isWordChar_of_isName (isName_head hs')) (Phrase.stops_blank _) (Phrase.stops_blank _) h
  replace hrest := (List.cons.inj hrest).2
  cases s with
  | attr name v =>
    simp only [legible, Bool.and_eq_true] at hs
    cases s' with
    | attr name' v' =>
      simp only [legible, Bool.and_eq_true] at hs'
      obtain ⟨hname, hvalue⟩ := word_unique (isWordChar_of_isName hs.1) (isWordChar_of_isName hs'.1)
        (Phrase.stops_blank _) (Phrase.stops_blank _) hrest
      simp only [List.cons.injEq, true_and] at hvalue
      obtain ⟨rfl, rfl⟩ := value_unique hs.2 hs'.2 hvalue
      rw [String.toList_inj.1 hname]
      exact ⟨rfl, rfl⟩
    | rule p' => exact absurd hrest (name_ne_arrow hs.1 _ _)
  | rule p =>
    cases s' with
    | attr name' v' =>
      simp only [legible, Bool.and_eq_true] at hs'
      exact absurd hrest.symm (name_ne_arrow hs'.1 _ _)
    | rule p' =>
      simp only [legible, Bool.and_eq_true, List.all_eq_true] at hs hs'
      simp only [rest, List.cons.injEq, true_and] at hrest
      obtain ⟨hss, rfl⟩ := successorsLine_unique hs.2 hs'.2 hrest
      obtain ⟨n, ss⟩ := p
      obtain ⟨n', ss'⟩ := p'
      obtain rfl : n = n' := String.toList_inj.1 hhead
      simp only [canonical, translate, Rule.translate, hss]
      exact ⟨trivial, trivial⟩

end Statement

namespace Grammar

theorem statements_unique {ss ss' : List (Statement Float32)} (hs : ∀ s ∈ ss, s.legible = true)
    (hs' : ∀ s ∈ ss', s.legible = true)
    (h : String.join (ss.map (·.text ++ "\n")) = String.join (ss'.map (·.text ++ "\n"))) :
    ss.map Statement.canonical = ss'.map Statement.canonical := by
  induction ss generalizing ss' with
  | nil =>
    cases ss' with
    | nil => rfl
    | cons s' ss' => simpa [String.join_cons] using congrArg String.toList h
  | cons s ss ih =>
    cases ss' with
    | nil => simpa [String.join_cons] using congrArg String.toList h
    | cons s' ss' =>
      rw [List.forall_mem_cons] at hs hs'
      have hline : s.text.toList ++ '\n' :: (String.join (ss.map (·.text ++ "\n"))).toList =
          s'.text.toList ++ '\n' :: (String.join (ss'.map (·.text ++ "\n"))).toList := by
        simpa [String.join_cons] using congrArg String.toList h
      obtain ⟨hc, hrest⟩ := Statement.unique hs.1 hs'.1 hline
      rw [List.map_cons, List.map_cons, hc, ih hs.2 hs'.2 (String.toList_inj.1 hrest)]

theorem canonical_eq_of_text_eq {g g' : Grammar Float32} (hg : g.legible = true) (hg' : g'.legible = true)
    (h : g.text = g'.text) : g.canonical = g'.canonical := by
  rw [legible, List.all_eq_true] at hg hg'
  exact congrArg Grammar.mk (statements_unique hg hg' h)

end Grammar

/-- Two legible grammars with one text are equal up to minus signs in front of numbers and parentheses
around negated compounds, neither of which changes a value; and they have the same runs. -/
theorem text_determines_grammar {g g' : Grammar Float32} (hg : g.legible = true)
    (hg' : g'.legible = true) :
    (g.text = g'.text ↔ g.canonical = g'.canonical) ∧
      (∀ (env : Env Float32) (e : Expr Float32), e.canonical.eval env = e.eval env) ∧
      (g.text = g'.text → ∀ (config : Config) (ax : Axiom Float32) (fuel : Nat),
        g.derive? config ax fuel = g'.derive? config ax fuel) := by
  refine ⟨⟨Grammar.canonical_eq_of_text_eq hg hg', fun h => ?_⟩, Expr.eval_canonical,
    fun h config ax fuel => ?_⟩
  · rw [← g.text_canonical, h, g'.text_canonical]
  · rw [← g.derive?_canonical, Grammar.canonical_eq_of_text_eq hg hg' h, g'.derive?_canonical]

/-- A lot that is raised by some height, and whose front is then divided into a wall and doors. -/
def frontedLot (height : Expr Float32) : Grammar Float32 :=
  ⟨[.attr "storey" 3,
    .rule ⟨"Lot", [.operation (.extrude none height), .operation (.componentSplit .faces
      [⟨.front, .operation (.split .x none ⟨[.step (.relative (.constant 1 .plain)) (.symbol "Wall"),
        .nested [.step (.absolute (.constant 2 .plain)) (.symbol "Door")] true], false⟩)⟩])]⟩]⟩

/-- Two heights that are both written as `-2 + -(storey - 1)`. -/
def markedHeight : Expr Float32 :=
  .binary .add (.constant 2 ⟨true, false⟩)
    (.binary .sub (.attr "storey" .plain) (.constant 1 .plain) ⟨true, true⟩) .plain

def signedHeight : Expr Float32 :=
  .binary .add (.constant (-2) .plain)
    (.binary .sub (.attr "storey" .plain) (.constant 1 .plain) ⟨true, false⟩) .plain

theorem text_determines_frontedLot :
    (frontedLot markedHeight).legible = true ∧ (frontedLot signedHeight).legible = true ∧
      markedHeight ≠ signedHeight ∧ (frontedLot markedHeight).text = (frontedLot signedHeight).text ∧
      (frontedLot markedHeight).canonical = (frontedLot signedHeight).canonical ∧
      ∀ (config : Config) (ax : Axiom Float32) (fuel : Nat),
        (frontedLot markedHeight).derive? config ax fuel =
          (frontedLot signedHeight).derive? config ax fuel := by
  have hmarked : (frontedLot markedHeight).legible = true := by decide +kernel
  have hsigned : (frontedLot signedHeight).legible = true := by decide +kernel
  have htext : (frontedLot markedHeight).text = (frontedLot signedHeight).text := by decide +kernel
  obtain ⟨hcanonical, -, hruns⟩ := text_determines_grammar hmarked hsigned
  exact ⟨hmarked, hsigned, by decide +kernel, htext, hcanonical.1 htext, hruns htext⟩

end ShapeGrammar
