import ShapeGrammar.Proofs.Shortest
import ShapeGrammar.Proofs.Substitution
import ShapeGrammar.Proofs.Translation

/-! Canonical expressions. Two marks can be set in more than one way for the same text: the minus sign
in front of a number, and parentheses around a negated compound. The canonical way changes neither text
nor value, and so a grammar in canonical form has the text and the runs of the original. -/
namespace ShapeGrammar
open Binary32

namespace Expr

/-- A minus sign in front of a number without one becomes the sign of the number, and parentheses are not
set where a negated compound has them anyway. -/
def canonical : Expr Float32 → Expr Float32
  | constant v m =>
    if m.negated && !m.parenthesized && v.isFinite && !isNegative v then constant (-v) .plain
    else constant v m
  | attr n m => attr n m
  | scope a m => scope a m
  | binary op l r m => binary op l.canonical r.canonical ⟨m.negated, m.parenthesized && !m.negated⟩

theorem text_canonical (e : Expr Float32) : e.canonical.text = e.text := by
  induction e with
  | constant v m =>
    rw [canonical]
    split
    · next h =>
      obtain ⟨⟨⟨hn, hp⟩, hf⟩, hv⟩ := by simpa only [Bool.and_eq_true, Bool.not_eq_true'] using h
      obtain ⟨n, p⟩ := m
      obtain rfl : n = true := hn
      obtain rfl : p = false := hp
      exact text_neg hf hv
    · rfl
  | attr n m | scope a m => rfl
  | binary op l r m ihl ihr =>
    rw [canonical, text, text, ihl, ihr]
    obtain ⟨_ | _, _ | _⟩ := m <;> rfl

theorem eval_canonical (env : Env Float32) (e : Expr Float32) : e.canonical.eval env = e.eval env := by
  induction e with
  | constant v m =>
    rw [canonical]
    split
    · next h =>
      obtain ⟨⟨⟨hn, -⟩, -⟩, -⟩ := by simpa only [Bool.and_eq_true] using h
      rw [eval, eval, Marks.value, Marks.value, if_pos hn]
      rfl
    · rfl
  | attr n m | scope a m => rfl
  | binary op l r m ihl ihr =>
    rw [canonical, eval, eval, ihl, ihr]
    rfl

end Expr

def Successor.canonical : Successor Float32 → Successor Float32 := paraphrase (.ofExpr Expr.canonical)

theorem call_canonical (name : String) (v : Vec3 (Expr Float32)) :
    call name (v.map Expr.canonical) = call name v := by
  rw [call, call, Vec3.map, Expr.text_canonical, Expr.text_canonical, Expr.text_canonical]

theorem Size.text_canonical (z : Size Float32) : (z.map Expr.canonical).text = z.text := by
  cases z with
  | absolute e | relative e => rw [map, text, text, Expr.text_canonical]

mutual

theorem Successor.text_canonical : ∀ s : Successor Float32, s.canonical.text = s.text
  | .symbol name => by rw [Successor.canonical, Successor.paraphrase_symbol]
  | .operation op => by
    rw [Successor.canonical, Successor.paraphrase_operation, Successor.text, Successor.text]
    exact Operation.text_canonical op

theorem Operation.text_canonical : ∀ op : Operation Float32 (Successor Float32),
    (op.map (.ofExpr Expr.canonical) Successor.canonical).text = op.text
  | .translate v | .rotate v | .scale v => by
    rw [Operation.map, Paraphrase.ofExpr_expr, Operation.text, Operation.text, call_canonical]
  | .extrude none e | .extrude (some axis) e => by
    rw [Operation.map, Paraphrase.ofExpr_axis, Paraphrase.ofExpr_expr, Operation.text, Operation.text,
      Expr.text_canonical]
  | .componentSplit c ks => by rw [Operation.map, Operation.text, Operation.text, Selection.texts_canonical ks]
  | .split axis none p | .split axis (some a) p => by
    rw [Operation.map, Paraphrase.ofExpr_adjustment, Operation.text, Operation.text, Pattern.text_canonical p]

theorem Selection.texts_canonical : ∀ ks : List (Selection (Successor Float32)),
    Selection.texts (ks.map (Selection.map Successor.canonical)) = Selection.texts ks
  | [] => rfl
  | k :: ks => by
    rw [List.map_cons, Selection.texts, Selection.texts, Selection.text_canonical k,
      Selection.texts_canonical ks]

theorem Selection.text_canonical : ∀ k : Selection (Successor Float32),
    (k.map Successor.canonical).text = k.text
  | ⟨selector, s⟩ => by rw [Selection.map, Selection.text, Selection.text, Successor.text_canonical s]

theorem Pattern.text_canonical : ∀ p : Pattern Float32 (Successor Float32),
    (p.map (.ofExpr Expr.canonical) Successor.canonical).text = p.text
  | ⟨items, repeats⟩ => by
    rw [Pattern.map, Paraphrase.ofExpr_repeats, Pattern.text, Pattern.text, Item.texts_canonical items]

theorem Item.texts_canonical : ∀ items : List (Item Float32 (Successor Float32)),
    Item.texts (Item.maps (.ofExpr Expr.canonical) Successor.canonical items) = Item.texts items
  | [] => rfl
  | i :: is => by rw [Item.maps, Item.texts, Item.texts, Item.text_canonical i, Item.texts_canonical is]

theorem Item.text_canonical : ∀ i : Item Float32 (Successor Float32),
    (i.map (.ofExpr Expr.canonical) Successor.canonical).text = i.text
  | .step size s => by
    rw [Item.map, Paraphrase.ofExpr_expr, Item.text, Item.text, Size.text_canonical, Successor.text_canonical s]
  | .nested items repeats => by
    rw [Item.map, Paraphrase.ofExpr_repeats, Item.text, Item.text, Item.texts_canonical items]

end

def Grammar.canonical (g : Grammar Float32) : Grammar Float32 := g.translate Successor.canonical id

theorem Grammar.derive?_canonical (g : Grammar Float32) (config : Config) (ax : Axiom Float32) (fuel : Nat) :
    g.canonical.derive? config ax fuel = g.derive? config ax fuel :=
  derive?_translate (Paraphrase.translates Expr.eval_canonical) Successor.text_canonical g config ax fuel

theorem Statement.text_canonical (s : Statement Float32) :
    (s.translate Successor.canonical id).text = s.text := by
  cases s with
  | attr n v => rfl
  | rule r =>
    simp only [translate, Rule.translate, text, Rule.text, List.map_map]
    congr 2
    exact List.map_congr_left fun s _ => congrArg (" " ++ ·) s.text_canonical

theorem Grammar.text_canonical (g : Grammar Float32) : g.canonical.text = g.text := by
  simp only [canonical, translate, text, List.map_map]
  congr 1
  exact List.map_congr_left fun s _ => congrArg (· ++ "\n") s.text_canonical

end ShapeGrammar
