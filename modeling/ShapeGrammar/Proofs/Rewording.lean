import Mathlib.Data.List.Nodup
import Mathlib.Logic.Relation
import ShapeGrammar.Binary32
import ShapeGrammar.Proofs.RoundTrip

/-! Documents that are put differently. A grammar document may leave out a field with its default and
have members that no field is named for, at any depth. The kinds of values it is made of are given by a
schema, one change by a relation over it; a change at one place keeps the meaning in every place. -/
namespace ShapeGrammar

inductive Schema
  | plain | grammar | statements | statement | attr | rule | successors | successor | operation | vector
  | extrusion | componentSplit | selections | selection | split | pattern | items | item | step | size
  | expr | content | binary

/-- A field of a record; a field with a default may be left out. -/
structure Field where
  name : String
  schema : Schema
  default : Option Json := none

inductive Schema.Layout
  | plain
  | list (element : Schema)
  | sum (variants : List (String × Schema))
  | record (fields : List Field)

namespace Schema

def layout : Schema → Layout
  | plain => .plain
  | grammar => .record [⟨"statements", statements, none⟩]
  | statements => .list statement
  | statement => .sum [("Attribute", attr), ("Rule", rule)]
  | attr => .record [⟨"name", plain, none⟩, ⟨"value", plain, none⟩]
  | rule => .record [⟨"predecessor", plain, none⟩, ⟨"successors", successors, none⟩]
  | successors => .list successor
  | successor => .sum [("Symbol", plain), ("Operation", operation)]
  | operation => .sum [("Translate", vector), ("Rotate", vector), ("Scale", vector), ("Extrude", extrusion),
      ("ComponentSplit", componentSplit), ("Split", split)]
  | vector => .record [⟨"x", expr, none⟩, ⟨"y", expr, none⟩, ⟨"z", expr, none⟩]
  | extrusion => .record [⟨"axis", plain, some .null⟩, ⟨"distance", expr, none⟩]
  | componentSplit => .record [⟨"selector", plain, none⟩, ⟨"args", selections, none⟩]
  | selections => .list selection
  | selection => .record [⟨"selector", plain, none⟩, ⟨"successor", successor, none⟩]
  | split => .record [⟨"axis", plain, none⟩, ⟨"adjust", plain, some .null⟩, ⟨"pattern", pattern, none⟩]
  | pattern => .record [⟨"items", items, none⟩, ⟨"has_switch", plain, some (.bool false)⟩]
  | items => .list item
  | item => .sum [("Step", step), ("Pattern", pattern)]
  | step => .record [⟨"size", size, none⟩, ⟨"successor", successor, none⟩]
  | size => .sum [("Absolute", expr), ("Relative", expr)]
  | expr => .record [⟨"kind", content, none⟩, ⟨"negated", plain, some (.bool false)⟩,
      ⟨"parenthesized", plain, some (.bool false)⟩]
  | content => .sum [("Constant", plain), ("Attribute", plain), ("Shape", plain), ("Binary", binary)]
  | binary => .record [⟨"op", plain, none⟩, ⟨"left", expr, none⟩, ⟨"right", expr, none⟩]

end Schema

open Schema (Layout)

/-- One change at one place of a document: a field that has its default is left out, or a member that no
field is named for is added to an object. -/
inductive Rewords : Schema → Json → Json → Prop
  | drop {s fields f d} (as bs : List (String × Json)) (hs : s.layout = .record fields) (hf : f ∈ fields)
      (hd : f.default = some d) (hb : f.name ∉ bs.map (·.1)) :
      Rewords s (.object (as ++ (f.name, d) :: bs)) (.object (as ++ bs))
  | dropLast {s fields f d} (js : List Json) (hs : s.layout = .record fields)
      (hf : fields[js.length]? = some f) (hd : f.default = some d) : Rewords s (.array (js ++ [d])) (.array js)
  | add {s fields} (as bs : List (String × Json)) (n : String) (k : Json) (hs : s.layout = .record fields)
      (hn : n ∉ fields.map Field.name) : Rewords s (.object (as ++ bs)) (.object (as ++ (n, k) :: bs))
  | member {s fields f k k'} (as bs : List (String × Json)) (hs : s.layout = .record fields)
      (hf : f ∈ fields) (hk : Rewords f.schema k k') :
      Rewords s (.object (as ++ (f.name, k) :: bs)) (.object (as ++ (f.name, k') :: bs))
  | position {s fields f k k'} (as bs : List Json) (hs : s.layout = .record fields)
      (hf : fields[as.length]? = some f) (hk : Rewords f.schema k k') :
      Rewords s (.array (as ++ k :: bs)) (.array (as ++ k' :: bs))
  | variant {s variants tag t k k'} (hs : s.layout = .sum variants) (ht : (tag, t) ∈ variants)
      (hk : Rewords t k k') : Rewords s (.tagged tag k) (.tagged tag k')
  | element {s t k k'} (as bs : List Json) (hs : s.layout = .list t) (hk : Rewords t k k') :
      Rewords s (.array (as ++ k :: bs)) (.array (as ++ k' :: bs))

variable {α : Type} (leaf : Json → Option α)

/-- Two values mean the same in a place for a value of this kind. What has no decoder of its own is
read as a part of the sum that it belongs to. -/
def Schema.Same (j j' : Json) : Schema → Prop
  | plain => j = j'
  | grammar => Grammar.ofJson? leaf j = Grammar.ofJson? leaf j'
  | statements => j.list? (Statement.ofJson? leaf) = j'.list? (Statement.ofJson? leaf)
  | statement => Statement.ofJson? leaf j = Statement.ofJson? leaf j'
  | attr => Json.attr? leaf j = Json.attr? leaf j'
  | rule => Rule.ofJson? leaf j = Rule.ofJson? leaf j'
  | successors => j.list? (Successor.ofJson? leaf) = j'.list? (Successor.ofJson? leaf)
  | successor => Successor.ofJson? leaf j = Successor.ofJson? leaf j'
  | operation => Operation.ofJson? leaf j = Operation.ofJson? leaf j'
  | vector => Vec3.ofJson? leaf j = Vec3.ofJson? leaf j'
  | extrusion => Operation.ofJson? leaf (.tagged "Extrude" j) = Operation.ofJson? leaf (.tagged "Extrude" j')
  | componentSplit =>
    Operation.ofJson? leaf (.tagged "ComponentSplit" j) = Operation.ofJson? leaf (.tagged "ComponentSplit" j')
  | selections => j.list? (Selection.ofJson? leaf) = j'.list? (Selection.ofJson? leaf)
  | selection => Selection.ofJson? leaf j = Selection.ofJson? leaf j'
  | split => Operation.ofJson? leaf (.tagged "Split" j) = Operation.ofJson? leaf (.tagged "Split" j')
  | pattern => Pattern.ofJson? leaf j = Pattern.ofJson? leaf j'
  | items => j.list? (Item.ofJson? leaf) = j'.list? (Item.ofJson? leaf)
  | item => Item.ofJson? leaf j = Item.ofJson? leaf j'
  | step => Item.ofJson? leaf (.tagged "Step" j) = Item.ofJson? leaf (.tagged "Step" j')
  | size => Size.ofJson? leaf j = Size.ofJson? leaf j'
  | expr => Expr.ofJson? leaf j = Expr.ofJson? leaf j'
  | content => ∀ m : Marks, Expr.ofJson? leaf (m.wrapJson j) = Expr.ofJson? leaf (m.wrapJson j')
  | binary => ∀ m : Marks, Expr.ofJson? leaf (m.wrapJson (.tagged "Binary" j)) =
      Expr.ofJson? leaf (m.wrapJson (.tagged "Binary" j'))

theorem Schema.nodup_names {s : Schema} {fields : List Field} (hs : s.layout = .record fields) :
    (fields.map Field.name).Nodup := by
  cases s <;> cases hs <;> decide +kernel

/-- Two parts for the same field of a record: one for which they mean the same, or the default and none. -/
inductive Field.Same (f : Field) : Option Json → Option Json → Prop
  | refl (p : Option Json) : Same f p p
  | part {k k' : Json} (h : f.schema.Same leaf k k') : Same f (some k) (some k')
  | drop {d : Json} (h : f.default = some d) : Same f (some d) none

namespace Field.Same
variable {leaf} {f : Field} {p p' : Option Json}

theorem bind {τ : Type} {F : Json → Option τ} (h : f.Same leaf p p') (hd : f.default = none)
    (hF : ∀ k k', f.schema.Same leaf k k' → F k = F k') : p.bind F = p'.bind F := by
  cases h with
  | refl => rfl
  | part h => exact hF _ _ h
  | drop h => simp [hd] at h

theorem congr {τ : Type} {d : Json} (h : f.Same leaf p p') (F : Option Json → τ) (hs : f.schema = .plain)
    (hd : f.default = some d) (hF : F (some d) = F none) : F p = F p' := by
  cases h with
  | refl => rfl
  | @part k k' h =>
    rw [hs] at h
    rw [show k = k' from h]
  | drop h =>
    obtain rfl : d = _ := Option.some.inj (hd.symm.trans h)
    exact hF

end Field.Same

structure Alike (fields : List Field) (j j' : Json) : Prop where
  member : ∀ f ∈ fields, f.Same leaf (j.member f.name) (j'.member f.name)
  part : ∀ f ∈ fields, f.Same leaf (j.part (fields.map Field.name) f.name)
    (j'.part (fields.map Field.name) f.name)

variable {leaf}

theorem Alike.of_objects {fields : List Field} {ms ms' : List (String × Json)}
    (h : ∀ f ∈ fields, f.Same leaf (ms.lookup f.name) (ms'.lookup f.name)) :
    Alike leaf fields (.object ms) (.object ms') := ⟨h, h⟩

theorem Schema.same_of_alike {s : Schema} {fields : List Field} {j j' : Json}
    (hs : s.layout = .record fields) (h : Alike leaf fields j j') : s.Same leaf j j' := by
  obtain ⟨hm, hp⟩ := h
  cases s <;> cases hs <;> simp only [List.forall_mem_cons, List.map_cons, List.map_nil] at hm hp
  case grammar =>
    rw [Same, Grammar.ofJson?_eq, Grammar.ofJson?_eq, hp.1.bind rfl fun _ _ h => h]
  case attr =>
    obtain ⟨hn, hv, -⟩ := hp
    rw [Same, Json.attr?_eq, Json.attr?_eq, hn.bind rfl fun _ _ h => congrArg _ h,
      hv.bind rfl fun _ _ h => congrArg _ h]
  case rule =>
    obtain ⟨hn, hv, -⟩ := hp
    rw [Same, Rule.ofJson?_eq, Rule.ofJson?_eq, hn.bind rfl fun _ _ h => congrArg _ h,
      hv.bind rfl fun _ _ h => h]
  case vector =>
    obtain ⟨hx, hy, hz, -⟩ := hm
    rw [Same, Vec3.ofJson?_eq, Vec3.ofJson?_eq, hx.bind rfl fun _ _ h => h, hy.bind rfl fun _ _ h => h,
      hz.bind rfl fun _ _ h => h]
  case extrusion =>
    obtain ⟨ha, hd, -⟩ := hm
    rw [Same, Operation.ofJson?_extrude, Operation.ofJson?_extrude,
      ha.congr (Json.optional Json.axis?) rfl rfl rfl,
      hd.bind rfl fun _ _ h => h]
  case componentSplit =>
    obtain ⟨hc, ha, -⟩ := hm
    rw [Same, Operation.ofJson?_componentSplit, Operation.ofJson?_componentSplit,
      hc.bind rfl fun _ _ h => congrArg _ h, ha.bind rfl fun _ _ h => h]
  case selection =>
    obtain ⟨hc, ha, -⟩ := hp
    rw [Same, Selection.ofJson?_eq, Selection.ofJson?_eq,
      hc.bind rfl fun _ _ h => congrArg _ h, ha.bind rfl fun _ _ h => h]
  case split =>
    obtain ⟨hx, ha, hq, -⟩ := hm
    rw [Same, Operation.ofJson?_split, Operation.ofJson?_split,
      hx.bind rfl fun _ _ h => congrArg _ h, ha.congr (Json.optional Json.adjustment?) rfl rfl rfl,
      hq.bind rfl fun _ _ h => h]
  case pattern =>
    obtain ⟨hi, hr, -⟩ := hp
    rw [Same, Pattern.ofJson?_eq, Pattern.ofJson?_eq, hi.bind rfl fun _ _ h => h,
      hr.congr Json.flag rfl rfl rfl]
  case step =>
    obtain ⟨hz, hs, -⟩ := hp
    rw [Same, Item.ofJson?_step, Item.ofJson?_step, hz.bind rfl fun _ _ h => h, hs.bind rfl fun _ _ h => h]
  case expr =>
    obtain ⟨hk, hn, hq, -⟩ := hp
    rw [Same, Expr.ofJson?_eq, Expr.ofJson?_eq, hn.congr Json.flag rfl rfl rfl, hq.congr Json.flag rfl rfl rfl]
    refine hk.bind rfl fun k k' h => ?_
    simp only [show ∀ m : Marks, Expr.ofJson? leaf (m.wrapJson k) = Expr.ofJson? leaf (m.wrapJson k') from h]
  case binary =>
    intro m
    obtain ⟨ho, hl, hr, -⟩ := hm
    rw [Expr.ofJson?_binary, Expr.ofJson?_binary, ho.bind rfl fun _ _ h => congrArg _ h,
      hl.bind rfl fun _ _ h => h, hr.bind rfl fun _ _ h => h]

theorem Schema.same_variant {s t : Schema} {variants : List (String × Schema)} {tag : String} {k k' : Json}
    (hs : s.layout = .sum variants) (ht : (tag, t) ∈ variants) (h : t.Same leaf k k') :
    s.Same leaf (.tagged tag k) (.tagged tag k') := by
  cases s <;> cases hs <;> simp only [List.mem_cons, Prod.mk.injEq, List.not_mem_nil, or_false] at ht
  case statement =>
    obtain ⟨rfl, rfl⟩ | ⟨rfl, rfl⟩ := ht
    · exact congrArg (Option.map _) h
    · exact congrArg (Option.map _) h
  case successor =>
    obtain ⟨rfl, rfl⟩ | ⟨rfl, rfl⟩ := ht
    · rw [Same, show k = k' from h]
    · rw [Same, Successor.ofJson?_operation, Successor.ofJson?_operation, show _ = _ from h]
  case operation =>
    obtain ⟨rfl, rfl⟩ | ⟨rfl, rfl⟩ | ⟨rfl, rfl⟩ | ⟨rfl, rfl⟩ | ⟨rfl, rfl⟩ | ⟨rfl, rfl⟩ := ht
    · rw [Same, Operation.ofJson?_translate, Operation.ofJson?_translate, show _ = _ from h]
    · rw [Same, Operation.ofJson?_rotate, Operation.ofJson?_rotate, show _ = _ from h]
    · rw [Same, Operation.ofJson?_scale, Operation.ofJson?_scale, show _ = _ from h]
    all_goals exact h
  case item =>
    obtain ⟨rfl, rfl⟩ | ⟨rfl, rfl⟩ := ht
    · exact h
    · rw [Same, Item.ofJson?_nested, Item.ofJson?_nested, show _ = _ from h]
  case size =>
    obtain ⟨rfl, rfl⟩ | ⟨rfl, rfl⟩ := ht
    · exact congrArg (Option.map _) h
    · exact congrArg (Option.map _) h
  case content =>
    intro m
    obtain ⟨rfl, rfl⟩ | ⟨rfl, rfl⟩ | ⟨rfl, rfl⟩ | ⟨rfl, rfl⟩ := ht
    · rw [show k = k' from h]
    · rw [show k = k' from h]
    · rw [show k = k' from h]
    · exact h m

theorem Json.list?_congr {τ : Type} {f : Json → Option τ} {k k' : Json} (as bs : List Json)
    (h : f k = f k') : (array (as ++ k :: bs)).list? f = (array (as ++ k' :: bs)).list? f := by
  simp only [list?, array?, Option.bind_some, List.mapM_append, List.mapM_cons, h]

theorem Schema.same_element {s t : Schema} {k k' : Json} (as bs : List Json)
    (hs : s.layout = .list t) (h : t.Same leaf k k') :
    s.Same leaf (.array (as ++ k :: bs)) (.array (as ++ k' :: bs)) := by
  cases s <;> cases hs <;> exact Json.list?_congr as bs h

theorem Field.eq_of_name_eq {s : Schema} {fields : List Field} {f g : Field} (hs : s.layout = .record fields)
    (hf : f ∈ fields) (hg : g ∈ fields) (h : g.name = f.name) : g = f :=
  List.inj_on_of_nodup_map (Schema.nodup_names hs) hg hf h

theorem Field.Same.of_eq {f : Field} {p p' : Option Json} (h : p = p') : f.Same leaf p p' := h ▸ .refl p

theorem lookup_middle (as bs : List (String × Json)) (n : String) (k : Json) (m : String) :
    (as ++ (n, k) :: bs).lookup m = if m = n then (as.lookup m).or (some k) else (as ++ bs).lookup m := by
  rw [List.lookup_append, List.lookup_cons, List.lookup_append]
  by_cases h : m = n
  · simp [h]
  · rw [if_neg h, show (m == n) = false by simpa using h]

theorem Alike.of_arrays {s : Schema} {fields : List Field} {js js' : List Json}
    (hs : s.layout = .record fields) (hl : js.length ≤ fields.length ↔ js'.length ≤ fields.length)
    (h : ∀ (i : Nat) (f : Field), fields[i]? = some f → f.Same leaf js[i]? js'[i]?) :
    Alike leaf fields (.array js) (.array js') := by
  refine ⟨fun f _ => .refl none, fun f hf => ?_⟩
  obtain ⟨i, hi, rfl⟩ := List.getElem_of_mem hf
  have hidx : (fields.map Field.name).idxOf fields[i].name = i := by
    rw [← List.getElem_map Field.name (h := by simpa using hi)]
    exact (Schema.nodup_names hs).idxOf_getElem i (by simpa using hi)
  rw [Json.part, Json.part, List.length_map, hidx]
  by_cases hj : js.length ≤ fields.length
  · rw [if_pos hj, if_pos (hl.1 hj)]
    exact h i _ (List.getElem?_eq_getElem hi)
  · rw [if_neg hj, if_neg (hj ∘ hl.2)]
    exact .refl none

theorem getElem?_middle (as bs : List Json) (k k' : Json) {i : Nat} (h : i ≠ as.length) :
    (as ++ k :: bs)[i]? = (as ++ k' :: bs)[i]? := by
  rcases Nat.lt_or_gt_of_ne h with hi | hi
  · rw [List.getElem?_append_left hi, List.getElem?_append_left hi]
  · obtain ⟨n, rfl⟩ := Nat.exists_eq_add_of_lt hi
    rw [List.getElem?_append_right (by omega), List.getElem?_append_right (by omega), Nat.add_assoc,
      Nat.add_sub_cancel_left]
    rfl

theorem Rewords.same {s : Schema} {j j' : Json} (h : Rewords s j j') : s.Same leaf j j' := by
  induction h with
  | @drop s fields f d as bs hs hf hd hb =>
    refine Schema.same_of_alike hs (.of_objects fun g hg => ?_)
    rw [lookup_middle]
    by_cases hn : g.name = f.name
    · obtain rfl := Field.eq_of_name_eq hs hf hg hn
      have hnone : bs.lookup g.name = none := by
        rw [List.lookup_eq_none_iff]
        rintro p hp
        simpa using fun he : g.name = p.1 => hb (he ▸ List.mem_map_of_mem hp)
      rw [if_pos rfl, List.lookup_append, hnone]
      cases as.lookup g.name with
      | none => exact .drop hd
      | some k => exact .refl _
    · rw [if_neg hn]
      exact .refl _
  | @dropLast s fields f d js hs hf hd =>
    have hl : js.length < fields.length := (List.getElem?_eq_some_iff.1 hf).1
    refine Schema.same_of_alike hs (.of_arrays hs ?_ fun i g hg => ?_)
    · simpa using ⟨fun _ => Nat.le_of_lt hl, fun _ => hl⟩
    · rcases Nat.lt_trichotomy i js.length with hi | rfl | hi
      · rw [List.getElem?_append_left hi]
        exact .refl _
      · obtain rfl : f = g := Option.some.inj (hf.symm.trans hg)
        rw [List.getElem?_concat_length, List.getElem?_eq_none (Nat.le_refl _)]
        exact .drop hd
      · rw [List.getElem?_eq_none (Nat.le_of_lt hi), List.getElem?_eq_none (by simpa using Nat.succ_le_of_lt hi)]
        exact .refl _
  | @add s fields as bs n k hs hn =>
    refine Schema.same_of_alike hs (.of_objects fun g hg => .of_eq ?_)
    rw [lookup_middle, if_neg]
    rintro rfl
    exact hn (List.mem_map_of_mem hg)
  | @member s fields f k k' as bs hs hf hk ih =>
    refine Schema.same_of_alike hs (.of_objects fun g hg => ?_)
    rw [lookup_middle, lookup_middle]
    by_cases hn : g.name = f.name
    · obtain rfl := Field.eq_of_name_eq hs hf hg hn
      rw [if_pos rfl, if_pos rfl]
      cases as.lookup g.name with
      | none => exact .part ih
      | some k => exact .refl _
    · rw [if_neg hn, if_neg hn]
      exact .refl _
  | @position s fields f k k' as bs hs hf hk ih =>
    refine Schema.same_of_alike hs (.of_arrays hs (by simp) fun i g hg => ?_)
    by_cases hi : i = as.length
    · subst hi
      obtain rfl : f = g := Option.some.inj (hf.symm.trans hg)
      simpa using Field.Same.part ih
    · rw [getElem?_middle as bs k k' hi]
      exact .refl _
  | variant hs ht hk ih => exact Schema.same_variant hs ht ih
  | element as bs hs hk ih => exact Schema.same_element as bs hs ih

theorem Rewords.ofJson?_eq {j j' : Json} (h : Relation.ReflTransGen (Rewords .grammar) j j') :
    Grammar.ofJson? leaf j' = Grammar.ofJson? leaf j := by
  induction h with
  | refl => rfl
  | tail _ h ih =>
    have hsame : Schema.grammar.Same leaf _ _ := h.same
    exact hsame.symm.trans ih

/-- Whatever is written is read back as it was if the numbers in it are, and a grammar document that is
read means the same after any number of rewordings. The positions in a diagnostic fit a machine word. -/
theorem documents_round_trip (write : α → Json) (read? : Json → Option α) :
    (∀ g : Grammar α, (∀ v ∈ g.numbers, read? (write v) = some v) →
      Grammar.ofJson? read? (g.toJson write) = some g) ∧
    (∀ a : Axiom α, (∀ v ∈ a.numbers, read? (write v) = some v) →
      Axiom.ofJson? read? (a.toJson write) = some a) ∧
    (∀ h : Shape α, (∀ v ∈ h.numbers, read? (write v) = some v) →
      Shape.ofJson? read? (h.toJson write) = some h) ∧
    (∀ d : Diagnostic, d.offset < Nat.pow 2 64 → d.line < Nat.pow 2 64 → d.column < Nat.pow 2 64 →
      Diagnostic.ofJson? d.toJson = some d) ∧
    (∀ (j j' : Json) (g : Grammar α), Relation.ReflTransGen (Rewords .grammar) j j' →
      Grammar.ofJson? read? j = some g → Grammar.ofJson? read? j' = some g) :=
  ⟨fun _ => Grammar.ofJson?_toJson, fun _ => Axiom.ofJson?_toJson, fun _ => Shape.ofJson?_toJson,
    fun _ => Diagnostic.ofJson?_toJson, fun _ _ _ h hj => (Rewords.ofJson?_eq h).trans hj⟩

namespace Binary32

/-- A whole number as it can be put into a document by hand, `3` where a serializer writes `3.0`; of any
other number only the whole part is written. Both spellings are read as the same number. -/
def wholeJson (v : Float32) : Json := .number ⟨isNegative v, true, ⟨units v / Nat.pow 2 149, 0⟩⟩

def ofJson? (j : Json) : Option Float32 :=
  j.number?.map fun n => ofDecimal n.negative n.whole n.decimal

end Binary32

def raisedLot : Grammar Float32 :=
  ⟨[.attr "height" 3, .rule ⟨"Lot", [.operation (.extrude none
    (.binary .mul (.attr "height" .plain) (.constant (-2) .plain) ⟨true, false⟩))]⟩]⟩

def extrusionDocument (members : List (String × Json)) : Json :=
  .object [("statements", .array [.tagged "Rule" (.object [("predecessor", .string "Lot"),
    ("successors", .array [.tagged "Operation" (.tagged "Extrude" (.object members))])])])]

theorem rewords_extrusionDocument (as bs : List (String × Json)) (hb : "axis" ∉ bs.map (·.1)) :
    Rewords .grammar (extrusionDocument (as ++ ("axis", .null) :: bs)) (extrusionDocument (as ++ bs)) := by
  have hd : Rewords .extrusion (.object (as ++ ("axis", .null) :: bs)) (.object (as ++ bs)) :=
    .drop (f := ⟨"axis", .plain, some .null⟩) as bs rfl List.mem_cons_self rfl hb
  have ho : Rewords .operation (.tagged "Extrude" _) (.tagged "Extrude" _) := .variant rfl (by simp) hd
  have hs : Rewords .successor (.tagged "Operation" _) (.tagged "Operation" _) := .variant rfl (by simp) ho
  have hr := Rewords.member (s := .rule) (f := ⟨"successors", .successors, none⟩)
    [("predecessor", .string "Lot")] [] rfl (by simp) (.element [] [] rfl hs)
  have ht : Rewords .statement (.tagged "Rule" _) (.tagged "Rule" _) := .variant rfl (by simp) hr
  exact .member (f := ⟨"statements", .statements, none⟩) [] [] rfl (by simp) (.element [] [] rfl ht)

theorem documents_round_trip_raisedLot :
    Grammar.ofJson? Binary32.ofJson? (raisedLot.toJson Binary32.wholeJson) = some raisedLot ∧
      Grammar.ofJson? Binary32.ofJson? (extrusionDocument
        [("distance", (Expr.constant (α := Float32) 2 .plain).toJson Binary32.wholeJson)]) =
          some ⟨[.rule ⟨"Lot", [.operation (.extrude none (.constant 2 .plain))]⟩]⟩ := by
  obtain ⟨hg, -, -, -, hr⟩ := documents_round_trip Binary32.wholeJson Binary32.ofJson?
  have hf := hg ⟨[.rule ⟨"Lot", [.operation (.extrude none (.constant 2 .plain))]⟩]⟩ (by decide +kernel)
  exact ⟨hg raisedLot (by decide +kernel), hr _ _ _ (.single (rewords_extrusionDocument [] _ (by simp))) hf⟩

end ShapeGrammar
