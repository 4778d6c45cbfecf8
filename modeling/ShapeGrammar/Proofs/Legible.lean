import ShapeGrammar.Proofs.Phrase

/-! Successors are read from their text in one way, at every depth. A symbol is a word that ends with the
successor, an operation goes on with a parenthesis; parameters end with a comma, a parenthesis or a
colon, alternatives with a blank, and a star behind the braces marks a pattern. -/
namespace ShapeGrammar

/-- What can follow a successor: nothing, a blank or the end of the line. -/
def Ends (r : List Char) : Prop := ∀ c ∈ r.head?, c = ' ' ∨ c = '\n'

theorem Ends.stops {r : List Char} (h : Ends r) : Stops r := by
  intro c hc
  rcases h c hc with rfl | rfl <;> rfl

theorem ends_cons {c : Char} (h : c = ' ' ∨ c = '\n') (r : List Char) : Ends (c :: r) := by
  intro d hd
  obtain rfl : c = d := Option.some.inj hd
  exact h

/-- The alternatives behind the first one in braces, each behind a bar, and the closing brace. -/
def alternatives : List String → List Char
  | [] => [' ', '\x7d']
  | s :: ss => ' ' :: '|' :: ' ' :: (s.toList ++ alternatives ss)

theorem ends_alternatives (ss : List String) (r : List Char) : Ends (alternatives ss ++ r) := by
  cases ss with
  | nil => exact ends_cons (.inl rfl) _
  | cons s ss => exact ends_cons (.inl rfl) _

theorem toList_braces_nil : (braces []).toList = ['\x7b', ' ', ' ', '\x7d'] := by
  decide +kernel

theorem toList_intercalate (s : String) (ss : List String) :
    (" | ".intercalate (s :: ss)).toList ++ [' ', '\x7d'] = s.toList ++ alternatives ss := by
  induction ss generalizing s with
  | nil => rw [String.intercalate_singleton, alternatives]
  | cons t ss ih =>
    rw [String.intercalate_cons_cons, String.toList_append, String.toList_append, List.append_assoc, ih]
    simp [alternatives]

theorem toList_braces_cons (s : String) (ss : List String) :
    (braces (s :: ss)).toList = '\x7b' :: ' ' :: (s.toList ++ alternatives ss) := by
  rw [← toList_intercalate, braces]
  simp

section Unique
variable {τ : Type} {text : τ → String} {legible : τ → Bool} {canonical : τ → τ}

/-- Up to its canonical form, the only legible value that a text can begin with where it may end. -/
def UniquelyRead (text : τ → String) (legible : τ → Bool) (canonical : τ → τ) (x : τ) : Prop :=
  ∀ y, legible y = true → ∀ r r', Ends r → Ends r' →
    (text x).toList ++ r = (text y).toList ++ r' → canonical x = canonical y ∧ r = r'

/-- A list of alternatives ends where a brace comes in the place of a bar. -/
theorem alternatives_unique {xs ys : List τ} (hx : ∀ x ∈ xs, UniquelyRead text legible canonical x)
    (hy : ∀ y ∈ ys, legible y = true) {r r' : List Char}
    (h : alternatives (xs.map text) ++ r = alternatives (ys.map text) ++ r') :
    xs.map canonical = ys.map canonical ∧ r = r' := by
  induction xs generalizing ys with
  | nil =>
    cases ys with
    | nil => simpa [alternatives] using h
    | cons y ys => simp [alternatives] at h
  | cons x xs ih =>
    cases ys with
    | nil => simp [alternatives] at h
    | cons y ys =>
      rw [List.forall_mem_cons] at hx hy
      simp only [List.map_cons, alternatives, List.cons_append, List.append_assoc, List.cons.injEq,
        true_and] at h
      obtain ⟨hxy, h⟩ := hx.1 y hy.1 _ _ (ends_alternatives _ r) (ends_alternatives _ r') h
      obtain ⟨hxs, rfl⟩ := ih hx.2 hy.2 h
      exact ⟨by rw [List.map_cons, List.map_cons, hxy, hxs], rfl⟩

/-- Empty braces have a blank where an alternative would begin. -/
theorem braces_unique {xs ys : List τ} (hx : ∀ x ∈ xs, UniquelyRead text legible canonical x)
    (hxl : ∀ x ∈ xs, legible x = true) (hy : ∀ y ∈ ys, legible y = true)
    (hblank : ∀ x, legible x = true → ∀ r cs, (text x).toList ++ r ≠ ' ' :: cs) {r r' : List Char}
    (h : (braces (xs.map text)).toList ++ r = (braces (ys.map text)).toList ++ r') :
    xs.map canonical = ys.map canonical ∧ r = r' := by
  cases xs with
  | nil =>
    cases ys with
    | nil => exact ⟨rfl, List.append_cancel_left h⟩
    | cons y ys =>
      simp only [List.map_nil, List.map_cons, toList_braces_nil, toList_braces_cons, List.cons_append,
        List.append_assoc, List.cons.injEq, true_and] at h
      exact absurd h.symm (hblank y (hy y List.mem_cons_self) _ _)
  | cons x xs =>
    cases ys with
    | nil =>
      simp only [List.map_nil, List.map_cons, toList_braces_nil, toList_braces_cons, List.cons_append,
        List.append_assoc, List.cons.injEq, true_and] at h
      exact absurd h (hblank x (hxl x List.mem_cons_self) _ _)
    | cons y ys =>
      rw [List.forall_mem_cons] at hx hy
      simp only [List.map_cons, toList_braces_cons, List.cons_append, List.append_assoc, List.cons.injEq,
        true_and] at h
      obtain ⟨hxy, h⟩ := hx.1 y hy.1 _ _ (ends_alternatives _ r) (ends_alternatives _ r') h
      obtain ⟨hxs, rfl⟩ := alternatives_unique hx.2 hy.2 h
      exact ⟨by rw [List.map_cons, List.map_cons, hxy, hxs], rfl⟩

end Unique

/-- Parameters are read up to a comma, a parenthesis or a colon. -/
theorem Expr.unique_before {e e' : Expr Float32} (he : e.legible = true) (he' : e'.legible = true)
    {c c' : Char} (hc : c ∈ [',', ')', ':']) (hc' : c' ∈ [',', ')', ':']) {r r' : List Char}
    (h : e.text.toList ++ c :: r = e'.text.toList ++ c' :: r') :
    e.canonical = e'.canonical ∧ c = c' ∧ r = r' := by
  have hstops : ∀ {c : Char} {r : List Char}, c ∈ [',', ')', ':'] →
      Stops (c :: r) ∧ (c :: r).head? ≠ some ' ' := by
    intro c r hc
    simp only [List.mem_cons, List.not_mem_nil, or_false] at hc
    obtain rfl | rfl | rfl := hc <;> exact ⟨stops_cons rfl r, by simp⟩
  obtain ⟨hcanonical, hrest⟩ :=
    unique he he' (hstops hc).1 (hstops hc').1 (hstops hc).2 (hstops hc').2 h
  exact ⟨hcanonical, List.cons.inj hrest⟩

theorem Phrase.chars_append_ne {p : Phrase} (hp : p.legible = true) {c : Char}
    (hc : c = ' ' ∨ c = '\x7b' ∨ c = '~') (r cs : List Char) : p.chars ++ r ≠ c :: cs := by
  induction p generalizing r with
  | atom a => exact atom_ne hp (by obtain rfl | rfl | rfl := hc <;> rfl)
  | group p ih | minus p ih =>
    intro h
    obtain rfl | rfl | rfl := hc <;> cases (List.cons.inj h).1
  | binary op l s ihl ihs =>
    rw [chars_binary_append]
    exact ihl (sound_binary.1 hp).2.1 _

theorem Expr.text_append_ne {e : Expr Float32} (he : e.legible = true) {c : Char}
    (hc : c = ' ' ∨ c = '\x7b' ∨ c = '~') (r cs : List Char) : e.text.toList ++ r ≠ c :: cs := by
  rw [← chars_phrase (worded_of_legible he)]
  exact Phrase.chars_append_ne (legible_phrase he) hc r cs

def Vec3.legible (v : Vec3 (Expr Float32)) : Bool := v.x.legible && (v.y.legible && v.z.legible)

def Size.legible : Size Float32 → Bool
  | absolute e | relative e => e.legible

mutual

/-- Symbols are names, and all expressions are legible. -/
def Successor.legible : Successor Float32 → Bool
  | .symbol name => isName name
  | .operation op => op.legible

def Operation.legible : Operation Float32 (Successor Float32) → Bool
  | .translate v | .rotate v | .scale v => v.legible
  | .extrude _ e => e.legible
  | .componentSplit _ selections => Selection.allLegible selections
  | .split _ _ p => p.legible

def Selection.allLegible : List (Selection (Successor Float32)) → Bool
  | [] => true
  | k :: ks => k.legible && Selection.allLegible ks

def Selection.legible : Selection (Successor Float32) → Bool
  | ⟨_, s⟩ => s.legible

def Pattern.legible : Pattern Float32 (Successor Float32) → Bool
  | ⟨items, _⟩ => Item.allLegible items

def Item.allLegible : List (Item Float32 (Successor Float32)) → Bool
  | [] => true
  | i :: is => i.legible && Item.allLegible is

def Item.legible : Item Float32 (Successor Float32) → Bool
  | .step size s => size.legible && s.legible
  | .nested items _ => Item.allLegible items

end

theorem Selection.allLegible_iff {ks : List (Selection (Successor Float32))} :
    Selection.allLegible ks = true ↔ ∀ k ∈ ks, k.legible = true := by
  induction ks with
  | nil => simp [allLegible]
  | cons k ks ih => rw [allLegible, Bool.and_eq_true, ih, List.forall_mem_cons]

theorem Item.allLegible_iff {is : List (Item Float32 (Successor Float32))} :
    Item.allLegible is = true ↔ ∀ i ∈ is, i.legible = true := by
  induction is with
  | nil => simp [allLegible]
  | cons i is ih => rw [allLegible, Bool.and_eq_true, ih, List.forall_mem_cons]

theorem Selection.texts_eq_map (ks : List (Selection (Successor Float32))) :
    Selection.texts ks = ks.map Selection.text := by
  induction ks with
  | nil => rfl
  | cons k ks ih => rw [texts, ih, List.map_cons]

theorem Item.texts_eq_map (is : List (Item Float32 (Successor Float32))) :
    Item.texts is = is.map Item.text := by
  induction is with
  | nil => rfl
  | cons i is ih => rw [texts, ih, List.map_cons]

theorem Axis.name_unique {a b : Axis} {r r' : List Char}
    (h : a.name.toList ++ r = b.name.toList ++ r') : a = b ∧ r = r' := by
  cases a <;> cases b <;> simp_all [name]

theorem Component.name_unique {a b : Component} {r r' : List Char}
    (h : a.name.toList ++ r = b.name.toList ++ r') : a = b ∧ r = r' := by
  cases a <;> cases b <;> simp_all [name]

theorem Component.name_ne_axis (a : Component) (b : Axis) {r r' : List Char} :
    a.name.toList ++ r ≠ b.name.toList ++ r' := by
  cases a <;> cases b <;> simp [name, Axis.name]

theorem Adjustment.name_unique {a b : Adjustment} {r r' : List Char}
    (h : a.name.toList ++ r = b.name.toList ++ r') : a = b ∧ r = r' := by
  cases a <;> cases b <;> simp_all [name]

theorem FaceSelector.name_unique {a b : FaceSelector} {r r' : List Char}
    (h : a.name.toList ++ ':' :: r = b.name.toList ++ ':' :: r') : a = b ∧ r = r' := by
  cases a <;> cases b <;> simp_all [name]

namespace Operation

def keyword : Operation Float32 (Successor Float32) → String
  | translate _ => "T"
  | rotate _ => "R"
  | scale _ => "S"
  | extrude _ _ => "extrude"
  | componentSplit _ _ | split _ _ _ => "split"

def parameters (v : Vec3 (Expr Float32)) : List Char :=
  v.x.text.toList ++ ',' :: ' ' :: (v.y.text.toList ++ ',' :: ' ' :: (v.z.text.toList ++ [')']))

def arguments : Operation Float32 (Successor Float32) → List Char
  | translate v | rotate v | scale v => parameters v
  | extrude (some axis) e => axis.name.toList ++ ',' :: ' ' :: (e.text.toList ++ [')'])
  | extrude none e => e.text.toList ++ [')']
  | componentSplit c ks => c.name.toList ++ ')' :: ' ' :: (braces (Selection.texts ks)).toList
  | split axis (some a) p =>
    axis.name.toList ++ ',' :: ' ' :: (a.name.toList ++ ')' :: ' ' :: p.text.toList)
  | split axis none p => axis.name.toList ++ ')' :: ' ' :: p.text.toList

theorem toList_text (op : Operation Float32 (Successor Float32)) :
    op.text.toList = op.keyword.toList ++ '(' :: op.arguments := by
  cases op with
  | translate v | rotate v | scale v => simp [Operation.text, call, keyword, arguments, parameters]
  | extrude axis e => cases axis <;> simp [Operation.text, keyword, arguments]
  | componentSplit c ks => simp [Operation.text, keyword, arguments]
  | split axis a p => cases a <;> simp [Operation.text, keyword, arguments]

theorem isWordChar_keyword (op : Operation Float32 (Successor Float32)) :
    ∀ c ∈ op.keyword.toList, isWordChar c = true :=
  List.all_eq_true.1 (by cases op <;> rw [keyword] <;> decide +kernel)

theorem stops_open (r : List Char) : Stops ('(' :: r) := stops_cons rfl r

theorem parameters_unique {v w : Vec3 (Expr Float32)} (hv : v.legible = true) (hw : w.legible = true)
    {r r' : List Char} (h : parameters v ++ r = parameters w ++ r') :
    v.map Expr.canonical = w.map Expr.canonical ∧ r = r' := by
  obtain ⟨x, y, z⟩ := v
  obtain ⟨x', y', z'⟩ := w
  simp only [Vec3.legible, Bool.and_eq_true] at hv hw
  simp only [parameters, List.append_assoc, List.cons_append, List.nil_append] at h
  obtain ⟨hx, -, h⟩ := Expr.unique_before hv.1 hw.1 (by simp) (by simp) h
  obtain ⟨hy, -, h⟩ := Expr.unique_before hv.2.1 hw.2.1 (by simp) (by simp) (List.cons.inj h).2
  obtain ⟨hz, -, h⟩ := Expr.unique_before hv.2.2 hw.2.2 (by simp) (by simp) (List.cons.inj h).2
  exact ⟨by rw [Vec3.map, Vec3.map, hx, hy, hz], h⟩

/-- An axis in front of the distance is told from a distance by the comma behind it. -/
theorem extrusion_unique {axis axis' : Option Axis} {e e' : Expr Float32} (he : e.legible = true)
    (he' : e'.legible = true) {r r' : List Char}
    (h : (extrude axis e).arguments ++ r = (extrude axis' e').arguments ++ r') :
    axis = axis' ∧ e.canonical = e'.canonical ∧ r = r' := by
  have hname : ∀ (axis : Axis) (e : Expr Float32) {r r' : List Char}, e.legible = true →
      axis.name.toList ++ ',' :: r ≠ e.text.toList ++ ')' :: r' := by
    intro axis e r r' he h
    have ha : (Expr.attr axis.name .plain : Expr Float32).legible = true := by
      cases axis <;> decide +kernel
    have hcomma := (Expr.unique_before ha he (by simp) (by simp) h).2.1
    cases hcomma
  cases axis with
  | none =>
    cases axis' with
    | none =>
      simp only [arguments, List.append_assoc, List.cons_append, List.nil_append] at h
      obtain ⟨hd, -, h⟩ := Expr.unique_before he he' (by simp) (by simp) h
      exact ⟨rfl, hd, h⟩
    | some axis' =>
      simp only [arguments, List.append_assoc, List.cons_append, List.nil_append] at h
      exact absurd h.symm (hname axis' e he)
  | some axis =>
    cases axis' with
    | none =>
      simp only [arguments, List.append_assoc, List.cons_append, List.nil_append] at h
      exact absurd h (hname axis e' he')
    | some axis' =>
      simp only [arguments, List.append_assoc, List.cons_append, List.nil_append] at h
      obtain ⟨rfl, hrest⟩ := Axis.name_unique h
      simp only [List.cons.injEq, true_and] at hrest
      obtain ⟨hd, -, hrest⟩ := Expr.unique_before he he' (by simp) (by simp) hrest
      exact ⟨rfl, hd, hrest⟩

/-- Both are written with one keyword, but components have other names than axes. -/
theorem componentSplit_ne_split (c : Component) (ks : List (Selection (Successor Float32))) (axis : Axis)
    (a : Option Adjustment) (p : Pattern Float32 (Successor Float32)) {r r' : List Char} :
    (componentSplit c ks).arguments ++ r ≠ (split axis a p).arguments ++ r' := by
  cases a <;> rw [arguments, arguments, List.append_assoc, List.append_assoc] <;> exact c.name_ne_axis axis

/-- A mark on a split is told from none by the comma in front of it. -/
theorem split_unique {axis axis' : Axis} {a a' : Option Adjustment}
    {p p' : Pattern Float32 (Successor Float32)} {r r' : List Char}
    (h : (split axis a p).arguments ++ r = (split axis' a' p').arguments ++ r') :
    axis = axis' ∧ a = a' ∧ p.text.toList ++ r = p'.text.toList ++ r' := by
  cases a <;> cases a' <;>
    simp only [arguments, List.append_assoc, List.cons_append] at h <;>
    obtain ⟨rfl, hrest⟩ := Axis.name_unique h <;>
    simp only [List.cons.injEq, true_and] at hrest
  · exact ⟨rfl, rfl, hrest⟩
  · cases hrest.1
  · cases hrest.1
  · obtain ⟨rfl, hrest⟩ := Adjustment.name_unique hrest
    exact ⟨rfl, rfl, by simpa using hrest⟩

end Operation

theorem Size.text_append_ne {z : Size Float32} (hz : z.legible = true) {c : Char}
    (hc : c = ' ' ∨ c = '\x7b') (r cs : List Char) : z.text.toList ++ r ≠ c :: cs := by
  cases z with
  | absolute e => exact Expr.text_append_ne hz (hc.imp_right .inl) r cs
  | relative e =>
    rw [text, String.toList_append]
    intro h
    obtain rfl | rfl := hc <;> cases (List.cons.inj h).1

theorem Size.toList_text_relative (e : Expr Float32) : (relative e).text.toList = '~' :: e.text.toList := by
  rw [text, String.toList_append]
  rfl

/-- A weight is told from a length by the tilde in front of it. -/
theorem Size.unique {z z' : Size Float32} (hz : z.legible = true) (hz' : z'.legible = true) {r r' : List Char}
    (h : z.text.toList ++ ':' :: r = z'.text.toList ++ ':' :: r') :
    z.map Expr.canonical = z'.map Expr.canonical ∧ r = r' := by
  cases z with
  | absolute e =>
    cases z' with
    | absolute e' =>
      obtain ⟨he, -, hr⟩ := Expr.unique_before hz hz' (by simp) (by simp) h
      exact ⟨by rw [map, map, he], hr⟩
    | relative e' =>
      rw [toList_text_relative] at h
      exact absurd h (Expr.text_append_ne hz (.inr (.inr rfl)) _ _)
  | relative e =>
    rw [toList_text_relative] at h
    cases z' with
    | absolute e' => exact absurd h.symm (Expr.text_append_ne hz' (.inr (.inr rfl)) _ _)
    | relative e' =>
      rw [toList_text_relative] at h
      obtain ⟨he, -, hr⟩ := Expr.unique_before hz hz' (by simp) (by simp) (List.cons.inj h).2
      exact ⟨by rw [map, map, he], hr⟩

theorem Selection.text_append_ne (k : Selection (Successor Float32)) (r cs : List Char) :
    k.text.toList ++ r ≠ ' ' :: cs := by
  obtain ⟨selector, s⟩ := k
  cases selector <;> simp [Selection.text, FaceSelector.name]

theorem exists_braced (ss : List String) (repeats : Bool) :
    ∃ cs, (braced ss repeats).toList = '\x7b' :: cs := by
  cases repeats <;> exact ⟨_, by simp [braced, braces]; rfl⟩

theorem Item.text_append_ne {i : Item Float32 (Successor Float32)} (hi : i.legible = true)
    (r cs : List Char) : i.text.toList ++ r ≠ ' ' :: cs := by
  cases i with
  | step size s =>
    simp only [legible, Bool.and_eq_true] at hi
    rw [text, String.toList_append, String.toList_append, List.append_assoc, List.append_assoc]
    exact Size.text_append_ne hi.1 (.inl rfl) _ _
  | nested items repeats =>
    obtain ⟨cs', hcs⟩ := exists_braced (Item.texts items) repeats
    rw [text, hcs]
    intro h
    cases (List.cons.inj h).1

theorem Item.toList_text_step (size : Size Float32) (s : Successor Float32) (r : List Char) :
    (Item.step size s).text.toList ++ r = size.text.toList ++ ':' :: ' ' :: (s.text.toList ++ r) := by
  simp [text]

/-- A pattern is marked by a star, which is nothing that can follow a successor. -/
theorem braced_unique {is is' : List (Item Float32 (Successor Float32))} {repeats repeats' : Bool}
    (hu : ∀ i ∈ is, UniquelyRead Item.text Item.legible
      (Item.map (.ofExpr Expr.canonical) Successor.canonical) i)
    (hi : Item.allLegible is = true) (hi' : Item.allLegible is' = true) {r r' : List Char}
    (hr : Ends r) (hr' : Ends r')
    (h : (braced (Item.texts is) repeats).toList ++ r = (braced (Item.texts is') repeats').toList ++ r') :
    Item.maps (.ofExpr Expr.canonical) Successor.canonical is =
      Item.maps (.ofExpr Expr.canonical) Successor.canonical is' ∧ repeats = repeats' ∧ r = r' := by
  have hbraced : ∀ (ss : List String) (b : Bool) (r : List Char), (braced ss b).toList ++ r =
      (braces ss).toList ++ ((if b then ['*'] else []) ++ r) := by
    intro ss b r
    cases b <;> simp [braced]
  rw [hbraced, hbraced, Item.texts_eq_map, Item.texts_eq_map] at h
  obtain ⟨hc, hstar⟩ := braces_unique hu (Item.allLegible_iff.1 hi) (Item.allLegible_iff.1 hi')
    (fun i hi => Item.text_append_ne hi) h
  rw [Item.maps_eq_map, Item.maps_eq_map]
  refine ⟨hc, ?_⟩
  cases repeats <;> cases repeats'
  · exact ⟨rfl, hstar⟩
  · obtain rfl : r = '*' :: r' := hstar
    rcases hr '*' rfl with h | h <;> cases h
  · obtain rfl : '*' :: r = r' := hstar
    rcases hr' '*' rfl with h | h <;> cases h
  · exact ⟨rfl, (List.cons.inj hstar).2⟩

theorem Operation.arguments_of_text {op op' : Operation Float32 (Successor Float32)} {r r' : List Char}
    (h : op.text.toList ++ r = op'.text.toList ++ r') :
    op.keyword = op'.keyword ∧ op.arguments ++ r = op'.arguments ++ r' := by
  rw [toList_text, toList_text, List.append_assoc, List.append_assoc] at h
  obtain ⟨hk, ha⟩ :=
    word_unique op.isWordChar_keyword op'.isWordChar_keyword (stops_open _) (stops_open _) h
  exact ⟨String.toList_inj.1 hk, (List.cons.inj ha).2⟩

theorem symbol_ne_operation {name : String} (hn : isName name = true)
    (op : Operation Float32 (Successor Float32)) {r r' : List Char} (hr : Ends r) :
    name.toList ++ r ≠ op.text.toList ++ r' := by
  intro h
  rw [Operation.toList_text, List.append_assoc] at h
  obtain ⟨-, rfl⟩ := word_unique (isWordChar_of_isName hn) op.isWordChar_keyword hr.stops
    (Operation.stops_open _) h
  rcases hr '(' rfl with h | h <;> cases h

-- The induction is on the part that is known; the other part and what follows the two are arbitrary, so that
-- what follows can be read on.
mutual

theorem Successor.unique : ∀ s : Successor Float32, s.legible = true →
    UniquelyRead Successor.text Successor.legible Successor.canonical s
  | .symbol name, hs => by
    intro s' hs' r r' hr hr' h
    rw [Successor.legible] at hs
    cases s' with
    | symbol name' =>
      rw [Successor.legible] at hs'
      rw [Successor.text, Successor.text] at h
      obtain ⟨hn, rfl⟩ :=
        word_unique (isWordChar_of_isName hs) (isWordChar_of_isName hs') hr.stops hr'.stops h
      exact ⟨by rw [String.toList_inj.1 hn], rfl⟩
    | operation op =>
      rw [Successor.text, Successor.text] at h
      exact absurd h (symbol_ne_operation hs op hr)
  | .operation op, hs => by
    intro s' hs' r r' hr hr' h
    rw [Successor.legible] at hs
    cases s' with
    | symbol name' =>
      rw [Successor.legible] at hs'
      rw [Successor.text, Successor.text] at h
      exact absurd h.symm (symbol_ne_operation hs' op hr')
    | operation op' =>
      rw [Successor.legible] at hs'
      rw [Successor.text, Successor.text] at h
      obtain ⟨hop, rfl⟩ := Operation.unique op hs op' hs' r r' hr hr' h
      refine ⟨?_, rfl⟩
      rw [Successor.canonical, Successor.paraphrase_operation, Successor.paraphrase_operation]
      exact congrArg Successor.operation hop

theorem Operation.unique : ∀ op : Operation Float32 (Successor Float32), op.legible = true →
    UniquelyRead Operation.text Operation.legible
      (Operation.map (.ofExpr Expr.canonical) Successor.canonical) op
  | .translate v, hop | .rotate v, hop | .scale v, hop => by
    intro op' hop' r r' hr hr' h
    obtain ⟨hk, ha⟩ := Operation.arguments_of_text h
    -- the keyword leaves the operation of the same kind alone
    cases op' <;> simp only [Operation.keyword, String.reduceEq] at hk
    next w =>
      obtain ⟨hv, rfl⟩ := Operation.parameters_unique hop hop' ha
      exact ⟨by rw [Operation.map, Operation.map, Paraphrase.ofExpr_expr, hv], rfl⟩
  | .extrude axis e, hop => by
    intro op' hop' r r' hr hr' h
    obtain ⟨hk, ha⟩ := Operation.arguments_of_text h
    cases op' with
    | extrude axis' e' =>
      obtain ⟨rfl, he, rfl⟩ := Operation.extrusion_unique hop hop' ha
      exact ⟨by rw [Operation.map, Operation.map, Paraphrase.ofExpr_expr, he], rfl⟩
    | _ => simp [Operation.keyword] at hk
  | .componentSplit c ks, hop => by
    intro op' hop' r r' hr hr' h
    obtain ⟨hk, ha⟩ := Operation.arguments_of_text h
    cases op' with
    | componentSplit c' ks' =>
      rw [Operation.legible] at hop hop'
      simp only [Operation.arguments, List.append_assoc, List.cons_append, Selection.texts_eq_map] at ha
      obtain ⟨rfl, hrest⟩ := Component.name_unique ha
      simp only [List.cons.injEq, true_and] at hrest
      obtain ⟨hks, rfl⟩ := braces_unique (Selection.allUnique ks hop) (Selection.allLegible_iff.1 hop)
        (Selection.allLegible_iff.1 hop') (fun k _ => k.text_append_ne) hrest
      rw [Operation.map, Operation.map, hks]
      exact ⟨rfl, rfl⟩
    | split axis a p => exact absurd ha (Operation.componentSplit_ne_split c ks axis a p)
    | _ => simp [Operation.keyword] at hk
  | .split axis a p, hop => by
    intro op' hop' r r' hr hr' h
    obtain ⟨hk, ha⟩ := Operation.arguments_of_text h
    cases op' with
    | split axis' a' p' =>
      rw [Operation.legible] at hop hop'
      obtain ⟨rfl, rfl, hrest⟩ := Operation.split_unique ha
      obtain ⟨hp, rfl⟩ := Pattern.unique p hop p' hop' r r' hr hr' hrest
      exact ⟨by rw [Operation.map, Operation.map, hp], rfl⟩
    | componentSplit c ks => exact absurd ha.symm (Operation.componentSplit_ne_split c ks axis a p)
    | _ => simp [Operation.keyword] at hk

theorem Selection.allUnique : ∀ ks : List (Selection (Successor Float32)),
    Selection.allLegible ks = true → ∀ k ∈ ks,
      UniquelyRead Selection.text Selection.legible (Selection.map Successor.canonical) k
  | [], _ => by simp
  | k :: ks, h => by
    rw [Selection.allLegible, Bool.and_eq_true] at h
    exact List.forall_mem_cons.2 ⟨Selection.unique k h.1, Selection.allUnique ks h.2⟩

theorem Selection.unique : ∀ k : Selection (Successor Float32), k.legible = true →
    UniquelyRead Selection.text Selection.legible (Selection.map Successor.canonical) k
  | ⟨selector, s⟩, hk => by
    rintro ⟨selector', s'⟩ hk' r r' hr hr' h
    rw [Selection.legible] at hk hk'
    simp only [Selection.text, String.toList_append, List.append_assoc] at h
    obtain ⟨rfl, hrest⟩ := FaceSelector.name_unique h
    obtain ⟨hs, rfl⟩ := Successor.unique s hk s' hk' r r' hr hr' (List.cons.inj hrest).2
    exact ⟨by rw [Selection.map, Selection.map, hs], rfl⟩

theorem Pattern.unique : ∀ p : Pattern Float32 (Successor Float32), p.legible = true →
    UniquelyRead Pattern.text Pattern.legible (Pattern.map (.ofExpr Expr.canonical) Successor.canonical) p
  | ⟨items, repeats⟩, hp => by
    rintro ⟨items', repeats'⟩ hp' r r' hr hr' h
    rw [Pattern.legible] at hp hp'
    rw [Pattern.text, Pattern.text] at h
    obtain ⟨hi, rfl, rfl⟩ := braced_unique (Item.allUnique items hp) hp hp' hr hr' h
    exact ⟨by rw [Pattern.map, Pattern.map, hi], rfl⟩

theorem Item.allUnique : ∀ is : List (Item Float32 (Successor Float32)),
    Item.allLegible is = true → ∀ i ∈ is,
      UniquelyRead Item.text Item.legible (Item.map (.ofExpr Expr.canonical) Successor.canonical) i
  | [], _ => by simp
  | i :: is, h => by
    rw [Item.allLegible, Bool.and_eq_true] at h
    exact List.forall_mem_cons.2 ⟨Item.unique i h.1, Item.allUnique is h.2⟩

theorem Item.unique : ∀ i : Item Float32 (Successor Float32), i.legible = true →
    UniquelyRead Item.text Item.legible (Item.map (.ofExpr Expr.canonical) Successor.canonical) i
  | .step size s, hi => by
    intro i' hi' r r' hr hr' h
    rw [Item.legible, Bool.and_eq_true] at hi
    rw [Item.toList_text_step] at h
    cases i' with
    | step size' s' =>
      rw [Item.legible, Bool.and_eq_true] at hi'
      rw [Item.toList_text_step] at h
      obtain ⟨hz, hrest⟩ := Size.unique hi.1 hi'.1 h
      obtain ⟨hs, rfl⟩ := Successor.unique s hi.2 s' hi'.2 r r' hr hr' (List.cons.inj hrest).2
      exact ⟨by rw [Item.map, Item.map, Paraphrase.ofExpr_expr, hz, hs], rfl⟩
    | nested items' repeats' =>
      obtain ⟨cs, hcs⟩ := exists_braced (Item.texts items') repeats'
      rw [Item.text, hcs] at h
      exact absurd h (Size.text_append_ne hi.1 (.inr rfl) _ _)
  | .nested items repeats, hi => by
    intro i' hi' r r' hr hr' h
    rw [Item.legible] at hi
    rw [Item.text] at h
    cases i' with
    | step size' s' =>
      rw [Item.legible, Bool.and_eq_true] at hi'
      obtain ⟨cs, hcs⟩ := exists_braced (Item.texts items) repeats
      rw [Item.toList_text_step, hcs] at h
      exact absurd h.symm (Size.text_append_ne hi'.1 (.inr rfl) _ _)
    | nested items' repeats' =>
      rw [Item.legible] at hi'
      rw [Item.text] at h
      obtain ⟨hc, rfl, rfl⟩ := braced_unique (Item.allUnique items hi) hi hi' hr hr' h
      exact ⟨by rw [Item.map, Item.map, hc], rfl⟩

end

end ShapeGrammar
