import ShapeGrammar.Proofs.Canonical

/-! Phrases. A phrase is an expression as it is written: words, parentheses, minus signs, and operators
between blanks. Of operators that no parentheses part the first one comes first. Then no phrase begins
where another one does and ends elsewhere, since words end where the text stops being made of word
characters, and a blank outside of parentheses belongs to an operator. Every legible expression is written
as such a phrase, from which its canonical form is read off. -/
namespace ShapeGrammar
open Binary32

/-- The characters that names and numbers are made of. -/
def isWordChar (c : Char) : Bool := c.isAlphanum || c == '_' || c == '.'

/-- The text ends, or goes on with a character that is in no word. -/
def Stops (r : List Char) : Prop := ∀ c ∈ r.head?, isWordChar c = false

theorem stops_cons {c : Char} (h : isWordChar c = false) (r : List Char) : Stops (c :: r) := by
  rintro d hd
  obtain rfl : c = d := Option.some.inj hd
  exact h

theorem takeWhile_of_stops {w r : List Char} (hw : ∀ c ∈ w, isWordChar c = true) (hr : Stops r) :
    (w ++ r).takeWhile isWordChar = w := by
  rw [List.takeWhile_append_of_pos hw]
  cases r with
  | nil => simp
  | cons c cs => rw [List.takeWhile_cons_of_neg (by simp [hr c rfl]), List.append_nil]

theorem word_unique {w w' r r' : List Char} (hw : ∀ c ∈ w, isWordChar c = true)
    (hw' : ∀ c ∈ w', isWordChar c = true) (hr : Stops r) (hr' : Stops r') (h : w ++ r = w' ++ r') :
    w = w' ∧ r = r' := by
  have hww : w = w' := by rw [← takeWhile_of_stops hw hr, h, takeWhile_of_stops hw' hr']
  subst hww
  exact ⟨rfl, List.append_cancel_left h⟩

def isName (s : String) : Bool :=
  match s.toList with
  | [] => false
  | c :: cs => (c.isAlpha || c == '_') && cs.all fun d => d.isAlphanum || d == '_'

theorem isDigit_of_isAlpha {c : Char} (h : c.isAlpha = true) : c.isDigit = false := by
  simp only [Char.isAlpha, Char.isUpper, Char.isLower, Bool.or_eq_true, Bool.and_eq_true, decide_eq_true_eq,
    ge_iff_le, UInt32.le_iff_toNat_le] at h
  simp only [Char.isDigit, ge_iff_le, UInt32.le_iff_toNat_le, Bool.and_eq_false_iff, decide_eq_false_iff_not]
  have hA : 'A'.val.toNat = 65 := rfl
  have ha : 'a'.val.toNat = 97 := rfl
  have h9 : '9'.val.toNat = 57 := rfl
  omega

theorem exists_name {s : String} (h : isName s = true) : ∃ c cs, s.toList = c :: cs ∧
    c.isDigit = false ∧ ∀ x ∈ c :: cs, x.isAlphanum = true ∨ x = '_' := by
  rw [isName] at h
  cases hs : s.toList with
  | nil => rw [hs] at h; cases h
  | cons c cs =>
    rw [hs] at h
    simp only [Bool.and_eq_true, Bool.or_eq_true, List.all_eq_true, beq_iff_eq] at h
    refine ⟨c, cs, rfl, ?_, List.forall_mem_cons.2 ⟨h.1.imp_left fun ha => ?_, h.2⟩⟩
    · obtain ha | rfl := h.1
      · exact isDigit_of_isAlpha ha
      · decide
    · rw [Char.isAlphanum, ha, Bool.true_or]

theorem isWordChar_of_isName {s : String} (h : isName s = true) :
    ∀ c ∈ s.toList, isWordChar c = true := by
  obtain ⟨c, cs, hs, -, hw⟩ := exists_name h
  rw [hs]
  intro x hx
  rcases hw x hx with ha | rfl
  · rw [isWordChar, ha, Bool.true_or, Bool.true_or]
  · rfl

/-- A word in an expression; a number has no sign. -/
inductive Atom
  | number (value : Float32)
  | attr (name : String)
  | scope (part : ScopeAttribute)

namespace Atom

def text : Atom → String
  | number v => Binary32.text v
  | attr n => n
  | scope a => a.name

def legible : Atom → Bool
  | number v => v.isFinite && !isNegative v
  | attr n => isName n
  | scope _ => true

variable {a b : Atom}

theorem exists_number {v : Float32} (h : (number v).legible = true) : ∃ c cs,
    (number v).text.toList = c :: cs ∧ c.isDigit = true ∧ ∀ x ∈ c :: cs, isWordChar x = true := by
  simp only [legible, Bool.and_eq_true, Bool.not_eq_true'] at h
  have htext : (number v).text = magnitude (units v) := by
    rw [text, text_eq h.1, h.2]
    rfl
  obtain ⟨c, cs, hc, hd, hw⟩ := exists_magnitude (units v)
  have hword : ∀ x : Char, x.isDigit = true → isWordChar x = true := fun x hx => by
    rw [isWordChar, Char.isAlphanum, hx, Bool.or_true, Bool.true_or, Bool.true_or]
  refine ⟨c, cs, by rw [htext, hc], hd, List.forall_mem_cons.2 ⟨hword c hd, fun x hx => ?_⟩⟩
  rcases hw x hx with hx | rfl
  · exact hword x hx
  · rfl

theorem isWordChar_of_mem (h : a.legible = true) : ∀ c ∈ a.text.toList, isWordChar c = true := by
  cases a with
  | number v =>
    obtain ⟨c, cs, hc, -, hw⟩ := exists_number h
    rw [hc]
    exact hw
  | attr n => exact isWordChar_of_isName h
  | scope p => exact List.all_eq_true.1 (by cases p with | _ axis => cases axis <;> decide +kernel)

theorem exists_head (h : a.legible = true) :
    ∃ c cs, a.text.toList = c :: cs ∧ (c.isDigit = true ↔ ∃ v, a = number v) := by
  cases a with
  | number v =>
    obtain ⟨c, cs, hc, hd, -⟩ := exists_number h
    exact ⟨c, cs, hc, fun _ => ⟨v, rfl⟩, fun _ => hd⟩
  | attr n =>
    obtain ⟨c, cs, hc, hd, -⟩ := exists_name h
    exact ⟨c, cs, hc, by simp [hd]⟩
  | scope p =>
    have hp : p.name.toList = 's' :: p.name.toList.tail := by
      cases p with | _ axis => cases axis <;> decide +kernel
    exact ⟨'s', p.name.toList.tail, hp, by simp⟩

/-- A read of a scope has a point, a name has none. -/
theorem attr_ne_scope {n : String} (h : isName n = true) (p : ScopeAttribute) : n ≠ p.name := by
  rintro rfl
  obtain ⟨c, cs, hc, -, hw⟩ := exists_name h
  have hp : p.name.toList.contains '.' = true := by
    cases p with | _ axis => cases axis <;> decide +kernel
  rw [hc, List.contains_iff_mem] at hp
  rcases hw '.' hp with h | h <;> revert h <;> decide

theorem text_inj (ha : a.legible = true) (hb : b.legible = true) (h : a.text = b.text) : a = b := by
  obtain ⟨c, cs, hc, hd⟩ := exists_head ha
  obtain ⟨c', cs', hc', hd'⟩ := exists_head hb
  rw [h, hc'] at hc
  rw [(List.cons.inj hc).1, hd] at hd'
  cases a with
  | number v =>
    obtain ⟨w, rfl⟩ := hd'.1 ⟨v, rfl⟩
    simp only [legible, Bool.and_eq_true] at ha hb
    exact congrArg number (Binary32.text_inj ha.1 hb.1 h)
  | attr n =>
    cases b with
    | number w => cases (hd'.2 ⟨w, rfl⟩).choose_spec
    | attr m => exact congrArg attr h
    | scope p => exact absurd h (attr_ne_scope ha p)
  | scope p =>
    cases b with
    | number w => cases (hd'.2 ⟨w, rfl⟩).choose_spec
    | attr m => exact absurd h.symm (attr_ne_scope hb p)
    | scope q =>
      have hp := ScopeAttribute.ofName?_name p
      rw [show p.name = q.name from h, ScopeAttribute.ofName?_name] at hp
      exact congrArg scope (Option.some.inj hp).symm

end Atom

inductive Phrase
  | atom (a : Atom)
  | group (p : Phrase)
  | minus (p : Phrase)
  | binary (op : Operator) (l r : Phrase)

namespace Phrase

def chars : Phrase → List Char
  | atom a => a.text.toList
  | group p => '(' :: (p.chars ++ [')'])
  | minus p => '-' :: p.chars
  | binary op l r => l.chars ++ ' ' :: (op.sign.toList ++ ' ' :: r.chars)

/-- Whether there is no blank outside of parentheses. -/
def tight : Phrase → Bool
  | binary _ _ _ => false
  | _ => true

/-- All words are legible, minus signs stand in front of tight phrases, and operators between phrases that
fit. -/
def sound (fits : Phrase → Phrase → Bool) : Phrase → Bool
  | atom a => a.legible
  | group p => p.sound fits
  | minus p => p.tight && p.sound fits
  | binary _ l r => fits l r && (l.sound fits && r.sound fits)

section Sound
variable {fits fits' : Phrase → Phrase → Bool} {p l r : Phrase} {op : Operator}

theorem sound_minus : (minus p).sound fits = true ↔ p.tight = true ∧ p.sound fits = true := by
  rw [sound, Bool.and_eq_true]

theorem sound_binary : (binary op l r).sound fits = true ↔
    fits l r = true ∧ l.sound fits = true ∧ r.sound fits = true := by
  rw [sound, Bool.and_eq_true, Bool.and_eq_true]

theorem sound_mono (hfits : ∀ l r, fits l r = true → fits' l r = true) (h : p.sound fits = true) :
    p.sound fits' = true := by
  induction p with
  | atom a => exact h
  | group p ih => exact ih h
  | minus p ih =>
    obtain ⟨ht, hp⟩ := sound_minus.1 h
    exact sound_minus.2 ⟨ht, ih hp⟩
  | binary op l r ihl ihr =>
    obtain ⟨hlr, hl, hr⟩ := sound_binary.1 h
    exact sound_binary.2 ⟨hfits l r hlr, ihl hl, ihr hr⟩

end Sound

def legible : Phrase → Bool := sound fun l r => l.tight && r.tight

/-- Operators can follow one another, but nothing stands in front of the first one but a tight phrase. -/
def aligned : Phrase → Bool := sound fun l _ => l.tight

theorem aligned_of_legible {p : Phrase} (h : p.legible = true) : p.aligned = true :=
  sound_mono (fun _ _ hlr => (Bool.and_eq_true_iff.1 hlr).1) h

/-- Among tight phrases, the phrase is the only one that a text can begin with. -/
def TightlyUnique (p : Phrase) : Prop := ∀ q : Phrase, q.aligned = true → q.tight = true →
  ∀ r r', Stops r → Stops r' → p.chars ++ r = q.chars ++ r' → p = q ∧ r = r'

/-- The phrase is the only one that a text without a blank behind it can begin with. -/
def Unique (p : Phrase) : Prop := ∀ q : Phrase, q.aligned = true → ∀ r r', Stops r → Stops r' →
  r.head? ≠ some ' ' → r'.head? ≠ some ' ' → p.chars ++ r = q.chars ++ r' → p = q ∧ r = r'

theorem stops_blank (r : List Char) : Stops (' ' :: r) := stops_cons rfl r

theorem chars_binary_append (op : Operator) (l s : Phrase) (r : List Char) :
    (binary op l s).chars ++ r = l.chars ++ ' ' :: (op.sign.toList ++ ' ' :: (s.chars ++ r)) := by
  simp [chars]

theorem chars_group_append (p : Phrase) (r : List Char) :
    (group p).chars ++ r = '(' :: (p.chars ++ ')' :: r) := by
  simp [chars]

theorem TightlyUnique.unique {p : Phrase} (hp : p.TightlyUnique) : p.Unique := by
  intro q hq r r' hr hr' hb hb' h
  cases q with
  | binary op l s =>
    obtain ⟨ht, hl, -⟩ := sound_binary.1 hq
    rw [chars_binary_append] at h
    obtain ⟨-, rfl⟩ := hp l hl ht r _ hr (stops_blank _) h
    exact absurd rfl hb
  | atom a | group q | minus q => exact hp _ hq rfl r r' hr hr' h

theorem sign_unique {o o' : Operator} {r r' : List Char} (h : o.sign.toList ++ r = o'.sign.toList ++ r') :
    o = o' ∧ r = r' := by
  cases o <;> cases o' <;> simp_all [Operator.sign]

/-- A blank behind a tight phrase is that of an operator, and no tight phrase goes on behind it. -/
theorem unique_binary {op : Operator} {l s : Phrase} (hl : l.TightlyUnique) (hs : s.Unique) :
    (binary op l s).Unique := by
  intro q hq r r' hr hr' hb hb' h
  rw [chars_binary_append] at h
  cases q with
  | binary op' l' s' =>
    obtain ⟨hlt', hl', hs'⟩ := sound_binary.1 hq
    rw [chars_binary_append] at h
    obtain ⟨rfl, hop⟩ := hl l' hl' hlt' _ _ (stops_blank _) (stops_blank _) h
    obtain ⟨rfl, hright⟩ := sign_unique (List.cons.inj hop).2
    obtain ⟨rfl, rfl⟩ := hs s' hs' r r' hr hr' hb hb' (List.cons.inj hright).2
    exact ⟨rfl, rfl⟩
  | atom a | group q | minus q =>
    obtain ⟨-, rfl⟩ := hl _ hq rfl _ _ (stops_blank _) hr' h
    exact absurd rfl hb'

theorem atom_ne {a : Atom} (ha : a.legible = true) {r cs : List Char} {c : Char} (hc : isWordChar c = false) :
    (atom a).chars ++ r ≠ c :: cs := by
  intro h
  obtain ⟨d, ds, hd, -⟩ := Atom.exists_head ha
  have hw := Atom.isWordChar_of_mem ha d (by rw [hd]; exact List.mem_cons_self)
  rw [chars, hd] at h
  rw [(List.cons.inj h).1, hc] at hw
  cases hw

theorem stops_close (r : List Char) : Stops (')' :: r) := stops_cons rfl r

theorem unique_atom {a : Atom} (ha : a.legible = true) : (atom a).TightlyUnique := by
  intro q hq ht r r' hr hr' h
  cases q with
  | atom b =>
    obtain ⟨htext, rfl⟩ :=
      word_unique (Atom.isWordChar_of_mem ha) (Atom.isWordChar_of_mem hq) hr hr' h
    obtain rfl := Atom.text_inj ha hq (String.toList_inj.1 htext)
    exact ⟨rfl, rfl⟩
  | group q => exact absurd (h.trans (chars_group_append q r')) (atom_ne ha rfl)
  | minus q => exact absurd h (atom_ne ha rfl)
  | binary op l s => cases ht

theorem unique_group {p : Phrase} (hp : p.Unique) : (group p).TightlyUnique := by
  intro q hq ht r r' hr hr' h
  rw [chars_group_append] at h
  cases q with
  | atom b => exact absurd h.symm (atom_ne hq rfl)
  | group q =>
    rw [chars_group_append] at h
    obtain ⟨rfl, hrest⟩ :=
      hp q hq _ _ (stops_close r) (stops_close r') (by simp) (by simp) (List.cons.inj h).2
    exact ⟨rfl, (List.cons.inj hrest).2⟩
  | minus q => cases (List.cons.inj h).1
  | binary op l s => cases ht

theorem unique_minus {p : Phrase} (hp : p.TightlyUnique) : (minus p).TightlyUnique := by
  intro q hq ht r r' hr hr' h
  cases q with
  | atom b => exact absurd h.symm (atom_ne hq rfl)
  | group q =>
    rw [chars_group_append] at h
    cases (List.cons.inj h).1
  | minus q =>
    obtain ⟨ht', hq'⟩ := sound_minus.1 hq
    obtain ⟨rfl, hrest⟩ := hp q hq' ht' r r' hr hr' (List.cons.inj h).2
    exact ⟨rfl, hrest⟩
  | binary op l s => cases ht

/-- What stands in front of an operator or behind a minus sign is tight, and parentheses hold any phrase. -/
theorem unique (p : Phrase) (hp : p.aligned = true) : (p.tight = true → p.TightlyUnique) ∧ p.Unique := by
  induction p with
  | atom a => exact ⟨fun _ => unique_atom hp, (unique_atom hp).unique⟩
  | group p ih => exact ⟨fun _ => unique_group (ih hp).2, (unique_group (ih hp).2).unique⟩
  | minus p ih =>
    obtain ⟨ht, hp'⟩ := sound_minus.1 hp
    have hm := unique_minus ((ih hp').1 ht)
    exact ⟨fun _ => hm, hm.unique⟩
  | binary op l s ihl ihs =>
    obtain ⟨hlt, hl, hs⟩ := sound_binary.1 hp
    exact ⟨nofun, unique_binary ((ihl hl).1 hlt) (ihs hs).2⟩

end Phrase

def Marks.phrase (m : Marks) (compound : Bool) (p : Phrase) : Phrase :=
  let bracketed := if m.parenthesized || (m.negated && compound) then .group p else p
  if m.negated then .minus bracketed else bracketed

theorem Marks.chars_phrase (m : Marks) (compound : Bool) (p : Phrase) {s : String} (h : p.chars = s.toList) :
    (m.phrase compound p).chars = (m.wrap compound s).toList := by
  obtain ⟨_ | _, _ | _⟩ := m <;> cases compound <;> simp [phrase, wrap, Phrase.chars, h]

theorem Marks.sound_phrase (m : Marks) {fits : Phrase → Phrase → Bool} {compound : Bool} {p : Phrase}
    (h : p.sound fits = true) (ht : compound = true ∨ p.tight = true) :
    (m.phrase compound p).sound fits = true := by
  obtain ⟨_ | _, _ | _⟩ := m <;> cases compound <;> simp_all [phrase, Phrase.sound, Phrase.tight]

namespace Expr

def signed (v : Float32) : Phrase :=
  if isNegative v then .minus (.atom (.number (-v))) else .atom (.number v)

def phrase : Expr Float32 → Phrase
  | constant v m => m.phrase false (signed v)
  | attr n m => m.phrase false (.atom (.attr n))
  | scope a m => m.phrase false (.atom (.scope a))
  | binary op l r m => m.phrase true (.binary op l.phrase r.phrase)

def isOperand : Expr Float32 → Bool
  | binary _ _ _ m => m.parenthesized || m.negated
  | _ => true

/-- Attributes have names, numbers are finite, and the operands of an operator fit. -/
def sound (fits : Expr Float32 → Expr Float32 → Bool) : Expr Float32 → Bool
  | constant v _ => v.isFinite
  | attr n _ => isName n
  | scope _ _ => true
  | binary _ l r _ => fits l r && (l.sound fits && r.sound fits)

section Sound
variable {fits fits' : Expr Float32 → Expr Float32 → Bool} {e l r : Expr Float32}

theorem sound_binary {op : Operator} {m : Marks} : (binary op l r m).sound fits = true ↔
    fits l r = true ∧ l.sound fits = true ∧ r.sound fits = true := by
  rw [sound, Bool.and_eq_true, Bool.and_eq_true]

theorem sound_mono (hfits : ∀ l r, fits l r = true → fits' l r = true) (h : e.sound fits = true) :
    e.sound fits' = true := by
  induction e with
  | constant v m | attr n m | scope a m => exact h
  | binary op l r m ihl ihr =>
    obtain ⟨hlr, hl, hr⟩ := sound_binary.1 h
    exact sound_binary.2 ⟨hfits l r hlr, ihl hl, ihr hr⟩

end Sound

def worded : Expr Float32 → Bool := sound fun _ _ => true

/-- An operand that is itself binary is in parentheses or negated. -/
def legible : Expr Float32 → Bool := sound fun l r => l.isOperand && r.isOperand

theorem worded_of_legible {e : Expr Float32} (h : e.legible = true) : e.worded = true :=
  sound_mono (fun _ _ _ => rfl) h

theorem chars_signed {v : Float32} (h : v.isFinite = true) : (signed v).chars = (Binary32.text v).toList := by
  rw [signed]
  split
  · next hn =>
    rw [text_of_isNegative h hn, String.toList_append]
    rfl
  · rfl

theorem tight_signed (v : Float32) : (signed v).tight = true := by
  rw [signed]
  split <;> rfl

theorem sound_signed {fits : Phrase → Phrase → Bool} {v : Float32} (h : v.isFinite = true) :
    (signed v).sound fits = true := by
  rw [signed]
  split
  · next hn => simp [Phrase.sound, Phrase.tight, Atom.legible, isFinite_neg h, isNegative_neg h, hn]
  · next hn => simp [Phrase.sound, Atom.legible, h, hn]

theorem chars_phrase {e : Expr Float32} (h : e.worded = true) : e.phrase.chars = e.text.toList := by
  induction e with
  | constant v m => exact m.chars_phrase false _ (chars_signed h)
  | attr n m => exact m.chars_phrase false _ rfl
  | scope a m => exact m.chars_phrase false _ rfl
  | binary op l r m ihl ihr =>
    obtain ⟨-, hl, hr⟩ := sound_binary.1 h
    refine m.chars_phrase true _ ?_
    simp [Phrase.chars, ihl hl, ihr hr]

theorem tight_phrase {e : Expr Float32} (h : e.isOperand = true) : e.phrase.tight = true := by
  cases e with
  | constant v m =>
    rw [phrase, signed]
    obtain ⟨_ | _, _ | _⟩ := m <;> cases isNegative v <;> rfl
  | attr n m | scope a m => obtain ⟨_ | _, _ | _⟩ := m <;> rfl
  | binary op l r m =>
    obtain ⟨_ | _, _ | _⟩ := m
    · cases h
    all_goals rfl

/-- An expression is written as soundly as it is built. -/
theorem sound_phrase {fits : Expr Float32 → Expr Float32 → Bool} {fits' : Phrase → Phrase → Bool}
    (hfits : ∀ l r, fits l r = true → fits' l.phrase r.phrase = true) {e : Expr Float32}
    (h : e.sound fits = true) : e.phrase.sound fits' = true := by
  induction e with
  | constant v m => exact m.sound_phrase (sound_signed h) (.inr (tight_signed v))
  | attr n m | scope a m => exact m.sound_phrase h (.inr rfl)
  | binary op l r m ihl ihr =>
    obtain ⟨hlr, hl, hr⟩ := sound_binary.1 h
    exact m.sound_phrase (Phrase.sound_binary.2 ⟨hfits l r hlr, ihl hl, ihr hr⟩) (.inl rfl)

theorem legible_phrase {e : Expr Float32} (h : e.legible = true) : e.phrase.legible = true := by
  refine sound_phrase (fun l r hlr => ?_) h
  obtain ⟨hl, hr⟩ := Bool.and_eq_true_iff.1 hlr
  exact Bool.and_eq_true_iff.2 ⟨tight_phrase hl, tight_phrase hr⟩

/-- The expression that a minus sign is written in front of, negated. -/
def minus : Expr Float32 → Expr Float32
  | constant v m =>
    if m.parenthesized || isNegative v then constant v { m with negated := true } else constant (-v) m
  | attr n m => attr n { m with negated := true }
  | scope a m => scope a { m with negated := true }
  | binary op l r _ => binary op l r ⟨true, false⟩

end Expr

/-- The canonical expression that is written as a phrase. -/
def Phrase.expr : Phrase → Expr Float32
  | atom (.number v) => .constant v .plain
  | atom (.attr n) => .attr n .plain
  | atom (.scope a) => .scope a .plain
  | group p => p.expr.parenthesize
  | minus p => p.expr.minus
  | binary op l r => .binary op l.expr r.expr .plain

namespace Expr

theorem expr_signed {v : Float32} (h : v.isFinite = true) : (signed v).expr = .constant v .plain := by
  rw [signed]
  split
  · next hn => simp [Phrase.expr, minus, isNegative_neg h, hn, neg_neg h, Marks.plain]
  · rfl

theorem expr_phrase {e : Expr Float32} (h : e.worded = true) : e.phrase.expr = e.canonical := by
  induction e with
  | constant v m =>
    have hv := expr_signed h
    have hf : v.isFinite = true := h
    obtain ⟨_ | _, _ | _⟩ := m <;> cases hn : isNegative v <;>
      simp [phrase, Marks.phrase, Phrase.expr, canonical, hv, hf, hn, minus, parenthesize, withMarks, marks,
        Marks.plain]
  | attr n m | scope a m => obtain ⟨_ | _, _ | _⟩ := m <;> rfl
  | binary op l r m ihl ihr =>
    have hl := ihl (sound_binary.1 h).2.1
    have hr := ihr (sound_binary.1 h).2.2
    obtain ⟨_ | _, _ | _⟩ := m <;>
      simp [phrase, Marks.phrase, Phrase.expr, canonical, hl, hr, minus, parenthesize, withMarks, marks,
        Marks.plain]

/-- Up to its canonical form, an expression is the only one that a text can begin with. -/
theorem unique {e e' : Expr Float32} (he : e.legible = true) (he' : e'.legible = true) {r r' : List Char}
    (hr : Stops r) (hr' : Stops r') (hb : r.head? ≠ some ' ') (hb' : r'.head? ≠ some ' ')
    (h : e.text.toList ++ r = e'.text.toList ++ r') : e.canonical = e'.canonical ∧ r = r' := by
  have hw := worded_of_legible he
  have hw' := worded_of_legible he'
  rw [← chars_phrase hw, ← chars_phrase hw'] at h
  obtain ⟨hp, rfl⟩ := (e.phrase.unique (Phrase.aligned_of_legible (legible_phrase he))).2 _
    (Phrase.aligned_of_legible (legible_phrase he')) r r' hr hr' hb hb' h
  rw [← expr_phrase hw, ← expr_phrase hw', hp]
  exact ⟨rfl, rfl⟩

end Expr
end ShapeGrammar
