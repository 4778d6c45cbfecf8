import ShapeGrammar.Proofs.Phrase

/-! What a text leaves open. Operators that no parentheses part can be grouped in more than one way, and
this is all: expressions have the same text just if they are written as the same phrase once the first of
such operators is taken first. So a text determines the value where nothing is left to be grouped, or where
the operations are nested alike; of operators grouped in two ways it may have two values. -/
namespace ShapeGrammar

inductive Nesting
  | leaf
  | node (left right : Nesting)
  deriving DecidableEq, Repr

namespace Nesting

def leaves : Nesting → Nat
  | leaf => 1
  | node l r => l.leaves + r.leaves

theorem leaves_pos (n : Nesting) : 0 < n.leaves := by
  induction n with
  | leaf => exact Nat.one_pos
  | node l r ihl ihr => exact Nat.add_pos_left ihl _

end Nesting

namespace Phrase

/-- Nothing is asked of what operators stand between. -/
def worded : Phrase → Bool := sound fun _ _ => true

def nesting : Phrase → Nesting
  | atom _ => .leaf
  | group p | minus p => p.nesting
  | binary _ l r => .node l.nesting r.nesting

/-- The phrase with one more operator behind its last one. -/
def extend : Phrase → Operator → Phrase → Phrase
  | binary o l r, op, q => binary o l (r.extend op q)
  | atom a, op, q => binary op (atom a) q
  | group p, op, q => binary op (group p) q
  | minus p, op, q => binary op (minus p) q

/-- The phrase with the first of its operators taken first wherever no parentheses part them. -/
def straight : Phrase → Phrase
  | atom a => atom a
  | group p => group p.straight
  | minus p => minus p.straight
  | binary op l r => l.straight.extend op r.straight

section Extend
variable {p p' q q' : Phrase} {op op' : Operator}

theorem extend_of_tight (h : p.tight = true) : p.extend op q = binary op p q := by
  cases p with
  | binary o l r => cases h
  | _ => rfl

theorem tight_extend : (p.extend op q).tight = false := by cases p <;> rfl

theorem chars_extend : (p.extend op q).chars = p.chars ++ ' ' :: (op.sign.toList ++ ' ' :: q.chars) := by
  induction p with
  | binary o l r _ ih => simp [extend, chars, ih]
  | _ => rfl

theorem aligned_extend (hp : p.aligned = true) (hq : q.aligned = true) : (p.extend op q).aligned = true := by
  induction p with
  | binary o l r _ ih =>
    obtain ⟨ht, hl, hr⟩ := sound_binary.1 hp
    exact sound_binary.2 ⟨ht, hl, ih hr⟩
  | _ => exact sound_binary.2 ⟨rfl, hp, hq⟩

theorem legible_of_extend (h : (p.extend op q).legible = true) :
    p.tight = true ∧ p.legible = true ∧ q.legible = true := by
  have ht : p.tight = true := by
    cases p with
    | binary o l r =>
      have hr := (Bool.and_eq_true_iff.1 (sound_binary.1 h).1).2
      rw [tight_extend] at hr
      cases hr
    | _ => rfl
  rw [extend_of_tight ht] at h
  exact ⟨ht, (sound_binary.1 h).2⟩

theorem leaves_extend : (p.extend op q).nesting.leaves = p.nesting.leaves + q.nesting.leaves := by
  induction p with
  | binary o l r _ ih => simp [extend, nesting, Nesting.leaves, ih, Nat.add_assoc]
  | _ => rfl

/-- A phrase is parted in one way into two with given numbers of leaves. -/
theorem extend_inj (hn : p.nesting.leaves = p'.nesting.leaves) (h : p.extend op q = p'.extend op' q') :
    p = p' ∧ op = op' ∧ q = q' := by
  -- along the operators of both parts; were one part longer, it would have more leaves
  induction p generalizing p' with
  | binary o l r _ ih =>
    have hpos := r.nesting.leaves_pos
    cases p' with
    | binary o' l' r' =>
      obtain ⟨rfl, rfl, hr⟩ := binary.inj h
      obtain ⟨rfl, hrest⟩ := ih (by simpa [nesting, Nesting.leaves] using hn) hr
      exact ⟨rfl, hrest⟩
    | _ =>
      obtain ⟨rfl, rfl, -⟩ := binary.inj h
      simp [nesting, Nesting.leaves] at hn hpos
      omega
  | _ =>
    cases p' with
    | binary o' l' r' =>
      have hpos := r'.nesting.leaves_pos
      obtain ⟨rfl, rfl, -⟩ := binary.inj h
      simp [nesting, Nesting.leaves] at hn hpos
      omega
    | _ =>
      obtain ⟨hop, hp, hq⟩ := binary.inj h
      exact ⟨hp, hop, hq⟩

end Extend

section Straight

theorem chars_straight (p : Phrase) : p.straight.chars = p.chars := by
  induction p with
  | atom a => rfl
  | group p ih | minus p ih => simp [straight, chars, ih]
  | binary op l r ihl ihr => rw [straight, chars_extend, ihl, ihr, chars]

theorem tight_straight (p : Phrase) : p.straight.tight = p.tight := by
  cases p with
  | binary op l r => exact tight_extend
  | _ => rfl

theorem leaves_straight (p : Phrase) : p.straight.nesting.leaves = p.nesting.leaves := by
  induction p with
  | atom a => rfl
  | group p ih | minus p ih => exact ih
  | binary op l r ihl ihr => rw [straight, leaves_extend, ihl, ihr, nesting, Nesting.leaves]

theorem aligned_straight {p : Phrase} (h : p.worded = true) : p.straight.aligned = true := by
  induction p with
  | atom a => exact h
  | group p ih => exact ih h
  | minus p ih =>
    obtain ⟨ht, hp⟩ := sound_minus.1 h
    exact sound_minus.2 ⟨(tight_straight p).trans ht, ih hp⟩
  | binary op l r ihl ihr =>
    obtain ⟨-, hl, hr⟩ := sound_binary.1 h
    exact aligned_extend (ihl hl) (ihr hr)

theorem straight_of_legible {p : Phrase} (h : p.legible = true) : p.straight = p := by
  induction p with
  | atom a => rfl
  | group p ih => exact congrArg group (ih h)
  | minus p ih => exact congrArg minus (ih (sound_minus.1 h).2)
  | binary op l r ihl ihr =>
    obtain ⟨ht, hl, hr⟩ := sound_binary.1 h
    rw [straight, ihl hl, ihr hr, extend_of_tight (Bool.and_eq_true_iff.1 ht).1]

/-- A legible phrase does not come from grouping in another way. -/
theorem straight_eq_self {p : Phrase} (h : p.straight.legible = true) : p.straight = p := by
  induction p with
  | atom a => rfl
  | group p ih => exact congrArg group (ih h)
  | minus p ih => exact congrArg minus (ih (sound_minus.1 h).2)
  | binary op l r ihl ihr =>
    obtain ⟨ht, hl, hr⟩ := legible_of_extend h
    rw [straight, extend_of_tight ht, ihl hl, ihr hr]

theorem tight_eq_of_straight_eq {p q : Phrase} (h : p.straight = q.straight) : p.tight = q.tight := by
  rw [← tight_straight, h, tight_straight]

/-- No other phrase with its operations nested alike is straightened to the same one. -/
theorem eq_of_straight_eq {p q : Phrase} (h : p.straight = q.straight) (hn : p.nesting = q.nesting) :
    p = q := by
  have htight := tight_eq_of_straight_eq h
  induction p generalizing q with
  | atom a => cases q <;> simp_all [straight, tight]
  | group p ih =>
    cases q with
    | group q =>
      have hpq := group.inj h
      rw [ih hpq hn (tight_eq_of_straight_eq hpq)]
    | binary op l r => cases htight
    | _ => cases h
  | minus p ih =>
    cases q with
    | minus q =>
      have hpq := minus.inj h
      rw [ih hpq hn (tight_eq_of_straight_eq hpq)]
    | binary op l r => cases htight
    | _ => cases h
  | binary op l r ihl ihr =>
    cases q with
    | binary op' l' r' =>
      obtain ⟨hl, hr⟩ := Nesting.node.inj hn
      -- straightening keeps the leaves, so both straightened phrases are parted at the same operator
      have hleaves : l.straight.nesting.leaves = l'.straight.nesting.leaves := by
        rw [leaves_straight, leaves_straight, hl]
      obtain ⟨hls, rfl, hrs⟩ := extend_inj hleaves h
      rw [ihl hls hl (tight_eq_of_straight_eq hls), ihr hrs hr (tight_eq_of_straight_eq hrs)]
    | _ => cases htight

end Straight

end Phrase

theorem Marks.nesting_phrase (m : Marks) (compound : Bool) (p : Phrase) :
    (m.phrase compound p).nesting = p.nesting := by
  obtain ⟨_ | _, _ | _⟩ := m <;> cases compound <;> rfl

namespace Expr

def nesting : Expr Float32 → Nesting
  | binary _ l r _ => .node l.nesting r.nesting
  | _ => .leaf

theorem worded_phrase {e : Expr Float32} (h : e.worded = true) : e.phrase.worded = true :=
  sound_phrase (fun _ _ _ => rfl) h

theorem nesting_phrase (e : Expr Float32) : e.phrase.nesting = e.nesting := by
  induction e with
  | constant v m =>
    rw [phrase, Marks.nesting_phrase, signed]
    split <;> rfl
  | attr n m | scope a m => exact m.nesting_phrase false _
  | binary op l r m ihl ihr => rw [phrase, Marks.nesting_phrase, Phrase.nesting, ihl, ihr, nesting]

section Text
variable {e e' : Expr Float32} (he : e.worded = true) (he' : e'.worded = true)
include he he'

/-- Texts are equal just if all differences are in the grouping of operators that no parentheses part, in
the minus signs in front of numbers and in the parentheses around negated compounds. -/
theorem text_eq_iff : e.text = e'.text ↔ e.phrase.straight = e'.phrase.straight := by
  constructor
  · intro h
    -- a straightened phrase is aligned whatever the marks are, and aligned ones are read in one way
    have hchars : e.phrase.straight.chars ++ [] = e'.phrase.straight.chars ++ [] := by
      rw [Phrase.chars_straight, Phrase.chars_straight, chars_phrase he, chars_phrase he', h]
    have hstops : Stops [] := fun c hc => nomatch hc
    have hunique := (Phrase.unique _ (Phrase.aligned_straight (worded_phrase he))).2
    exact (hunique _ (Phrase.aligned_straight (worded_phrase he')) [] [] hstops hstops (by simp) (by simp)
      hchars).1
  · intro h
    rw [← String.toList_inj, ← chars_phrase he, ← chars_phrase he', ← Phrase.chars_straight, h,
      Phrase.chars_straight]

theorem phrase_eq_of_text_eq (h : e.text = e'.text) (hn : e.legible = true ∨ e.nesting = e'.nesting) :
    e.phrase = e'.phrase := by
  have hs := (text_eq_iff he he').mp h
  rcases hn with hlegible | hnesting
  · have hp := legible_phrase hlegible
    have hself := Phrase.straight_of_legible hp
    rw [hself] at hs
    rw [hs, Phrase.straight_eq_self (hs ▸ hp)]
  · rw [← nesting_phrase, ← nesting_phrase] at hnesting
    exact Phrase.eq_of_straight_eq hs hnesting

end Text

/-- Two expressions whose attributes have names and whose numbers are finite evaluate to the same if they
have the same text, provided that in one of them each operand that is itself binary is in parentheses or
negated, or else that operations are nested alike in both. -/
theorem text_determines_value {e e' : Expr Float32} (he : e.worded = true) (he' : e'.worded = true)
    (h : e.text = e'.text) (hn : e.legible = true ∨ e.nesting = e'.nesting) (env : Env Float32) :
    e.eval env = e'.eval env := by
  have hcanonical : e.canonical = e'.canonical := by
    rw [← expr_phrase he, ← expr_phrase he', phrase_eq_of_text_eq he he' h hn]
  rw [← eval_canonical, hcanonical, eval_canonical]

def drop (below : Expr Float32) : Expr Float32 :=
  .binary .sub (.binary .sub (.attr "storey" .plain) below .plain) (.constant 1 .plain) .plain

def flight (m : Marks) : Expr Float32 :=
  .binary .mul (.constant 3 .plain) (.binary .add (.attr "storey" .plain) (.constant 1 .plain) m) .plain

/-- The drops are written as `storey - -2 - 1`, the flights as `3 * -(storey + 1)`. -/
theorem text_determines_value_stairs :
    let minus : Expr Float32 := .constant 2 ⟨true, false⟩
    let signed : Expr Float32 := .constant (-2) .plain
    (drop minus).worded = true ∧ (drop signed).worded = true ∧ (drop minus).text = (drop signed).text ∧
    (drop minus).legible = false ∧ (drop minus).nesting = (drop signed).nesting ∧
    (flight ⟨true, false⟩).worded = true ∧ (flight ⟨true, true⟩).worded = true ∧
    (flight ⟨true, false⟩).text = (flight ⟨true, true⟩).text ∧ (flight ⟨true, false⟩).legible = true ∧
    ∀ env : Env Float32, (drop minus).eval env = (drop signed).eval env ∧
      (flight ⟨true, false⟩).eval env = (flight ⟨true, true⟩).eval env := by
  intro minus signed
  have hminus : (drop minus).worded = true := by decide +kernel
  have hsigned : (drop signed).worded = true := by decide +kernel
  have hdrop : (drop minus).text = (drop signed).text := by decide +kernel
  have hplain : (flight ⟨true, false⟩).worded = true := by decide +kernel
  have hmarked : (flight ⟨true, true⟩).worded = true := by decide +kernel
  have hflight : (flight ⟨true, false⟩).text = (flight ⟨true, true⟩).text := by decide +kernel
  have hlegible : (flight ⟨true, false⟩).legible = true := by decide +kernel
  exact ⟨hminus, hsigned, hdrop, rfl, rfl, hplain, hmarked, hflight, hlegible, fun env =>
    ⟨text_determines_value hminus hsigned hdrop (.inr rfl) env,
      text_determines_value hplain hmarked hflight (.inl hlegible) env⟩⟩

/-- Grouped from the left and from the right `2 * 3 + 4` has two values. -/
theorem grouping_changes_value :
    let two : Expr Float32 := .constant 2 .plain
    let three : Expr Float32 := .constant 3 .plain
    let four : Expr Float32 := .constant 4 .plain
    let left : Expr Float32 := .binary .add (.binary .mul two three .plain) four .plain
    let right : Expr Float32 := .binary .mul two (.binary .add three four .plain) .plain
    let env : Env Float32 := ⟨fun _ => none, none⟩
    left.text = "2 * 3 + 4" ∧ right.text = "2 * 3 + 4" ∧
    left.eval env = .ok 10 ∧ right.eval env = .ok 14 ∧
    ¬ ∀ e e' : Expr Float32, e.worded = true → e'.worded = true → e.text = e'.text →
      ∀ env : Env Float32, e.eval env = e'.eval env := by
  intro two three four left right env
  have hleft : left.eval env = .ok 10 := by decide +kernel
  have hright : right.eval env = .ok 14 := by decide +kernel
  have htext : left.text = "2 * 3 + 4" := by decide +kernel
  have htext' : right.text = "2 * 3 + 4" := by decide +kernel
  refine ⟨htext, htext', hleft, hright, fun hall => ?_⟩
  have hsame := hall left right (by decide +kernel) (by decide +kernel) (htext.trans htext'.symm) env
  rw [hleft, hright] at hsame
  exact absurd hsame (by decide +kernel)

end Expr
end ShapeGrammar
