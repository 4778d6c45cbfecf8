import ShapeGrammar.Binary32
import ShapeGrammar.Proofs.Ending
import ShapeGrammar.Proofs.Lookup

/-! Inlining. A symbol in the body of a rule may be replaced by the body it stands for: derivations
that put the body there themselves and derivations that find it there go the same way, though the
first have more steps to do. -/
namespace ShapeGrammar
variable {α β : Type}

inductive Ending.NoLater : Ending α β → Ending α β → Prop
  | reached (v : β) (c : Scene α) {m n : Nat} : m ≤ n → NoLater (.reached v c m) (.reached v c n)
  | broken (e : Error) {m n : Nat} : m ≤ n → NoLater (.broken e m) (.broken e n)

/-- The second list has the body `b` in `m` places where the first has the symbol `q`. -/
inductive Inlined (q : String) (b : List (Successor α)) :
    Nat → List (Successor α) → List (Successor α) → Prop
  | nil : Inlined q b 0 [] []
  | keep (s) {m l l'} : Inlined q b m l l' → Inlined q b m (s :: l) (s :: l')
  | inline {m l l'} : Inlined q b m l l' → Inlined q b (m + 1) (.symbol q :: l) (b ++ l')

/-- The bodies being run differ by what is inlined, and nothing else differs. -/
inductive State.Inlined (q : String) (b : List (Successor α)) (m : Nat) : State α → State α → Prop
  | mk {l l' ys w c} : ShapeGrammar.Inlined q b m l l' → State.Inlined q b m ⟨⟨l, ys, w⟩, c⟩ ⟨⟨l', ys, w⟩, c⟩

/-- Steps that come to the same, but for what is inlined in the rest of a body. -/
inductive Lockstep (q : String) (b : List (Successor α)) :
    Option (Except Error (State α)) → Option (Except Error (State α)) → Prop
  | done : Lockstep q b none none
  | broken (e) : Lockstep q b (some (.error e)) (some (.error e))
  | ok {m x x'} : x.Inlined q b m x' → Lockstep q b (some (.ok x)) (some (.ok x'))

/-- The same attributes, and the same bodies but that `b`, the body of `q`, may stand in place of `q`. -/
structure Grammar.Inlines (g g' : Grammar α) (q : String) (b : List (Successor α)) : Prop where
  attr : g.attr? = g'.attr?
  inlined : g.body? (.symbol q) = some b
  bodies : ∀ s, (g.body? s = none ∧ g'.body? s = none) ∨
    ∃ m l l', g.body? s = some l ∧ g'.body? s = some l' ∧ Inlined q b m l l'

namespace Lockstep
variable {q : String} {b : List (Successor α)} {r r' : Option (Except Error (State α))}

theorem eq_none_iff (h : Lockstep q b r r') : r = none ↔ r' = none := by
  cases h <;> simp

theorem eq_error_iff {e : Error} (h : Lockstep q b r r') : r = some (.error e) ↔ r' = some (.error e) := by
  cases h <;> simp

theorem exists_right {x : State α} (h : Lockstep q b r r') (hr : r = some (.ok x)) :
    ∃ m x', r' = some (.ok x') ∧ x.Inlined q b m x' := by
  cases h with
  | ok hx =>
    cases hr
    exact ⟨_, _, rfl, hx⟩
  | _ => cases hr

theorem exists_left {x' : State α} (h : Lockstep q b r r') (hr : r' = some (.ok x')) :
    ∃ m x, r = some (.ok x) ∧ x.Inlined q b m x' := by
  cases h with
  | ok hx =>
    cases hr
    exact ⟨_, _, rfl, hx⟩
  | _ => cases hr

end Lockstep

namespace Inlined
variable {q : String} {b : List (Successor α)} {m n : Nat} {l l' k k' : List (Successor α)}

theorem refl (l : List (Successor α)) : Inlined q b 0 l l := by
  induction l with
  | nil => exact .nil
  | cons s l ih => exact .keep s ih

theorem append (hl : Inlined q b m l l') (hk : Inlined q b n k k') :
    Inlined q b (m + n) (l ++ k) (l' ++ k') := by
  induction hl with
  | nil => rwa [Nat.zero_add]
  | keep s h ih => exact .keep s ih
  | inline h ih =>
    rw [Nat.add_right_comm, List.append_assoc]
    exact .inline ih

end Inlined

def rebody (name : String) (body : List (Successor α)) : List (Statement α) → List (Statement α)
  | [] => []
  | s :: ss =>
    if s.isRuleFor name && !ss.any (·.isRuleFor name) then .rule ⟨name, body⟩ :: ss
    else s :: rebody name body ss

/-- The grammar with another body in the rule that counts for a name. -/
def Grammar.withBody (g : Grammar α) (name : String) (body : List (Successor α)) : Grammar α :=
  ⟨rebody name body g.statements⟩

namespace Grammar

section Rebody
variable {name other : String} {body : List (Successor α)} {ss : List (Statement α)}

theorem rule?_rebody_of_ne (h : other ≠ name) :
    rule? ⟨rebody name body ss⟩ other = rule? ⟨ss⟩ other := by
  induction ss with
  | nil => rfl
  | cons s ss ih =>
    rw [rebody]
    split
    · next hs =>
      rw [Bool.and_eq_true] at hs
      have hnew : (Statement.rule ⟨name, body⟩).isRuleFor name = true := by simp [Statement.isRuleFor]
      rw [rule?_cons, rule?_cons s, rule?_of_isRuleFor hnew h, rule?_of_isRuleFor hs.1 h]
    · rw [rule?_cons, ih, ← rule?_cons]

theorem rule?_rebody {r : Rule α} (h : rule? ⟨ss⟩ name = some r) :
    rule? ⟨rebody name body ss⟩ name = some ⟨name, body⟩ := by
  induction ss generalizing r with
  | nil => cases h
  | cons s ss ih =>
    rw [rebody, any_isRuleFor, isRuleFor_eq]
    cases hss : rule? ⟨ss⟩ name with
    | some later =>
      rw [Option.isSome_some, Bool.not_true, Bool.and_false, if_neg Bool.false_ne_true, rule?_cons, ih hss]
      rfl
    | none =>
      rw [rule?_cons, hss, Option.none_or] at h
      rw [h, Option.isSome_some, Option.isSome_none, Bool.not_false, Bool.and_true, if_pos rfl,
        rule?_cons, hss, Option.none_or, rule?_rule, if_pos rfl]

theorem attrs_rebody : attrs ⟨rebody name body ss⟩ = attrs ⟨ss⟩ := by
  induction ss with
  | nil => rfl
  | cons s ss ih =>
    rw [rebody]
    split
    · next hs =>
      cases s with
      | attr n v => simp [Statement.isRuleFor] at hs
      | rule r => rfl
    · simp only [attrs, List.filterMap_cons] at ih ⊢
      rw [ih]

end Rebody

section WithBody
variable {g : Grammar α} {p q : String} {u v : List (Successor α)} {r t : Rule α}

theorem inlines_withBody (hp : g.rule? p = some r) (hr : r.successors = u ++ .symbol q :: v)
    (hq : g.rule? q = some t) : g.Inlines (g.withBody p (u ++ t.successors ++ v)) q t.successors where
  attr := by
    funext n
    rw [attr?, attr?, withBody, attrs_rebody]
  inlined := by rw [body?, hq]; rfl
  bodies s := by
    cases s with
    | operation op => exact .inl ⟨rfl, rfl⟩
    | symbol name =>
      by_cases hname : name = p
      · subst hname
        refine .inr ⟨1, r.successors, u ++ t.successors ++ v, ?_, ?_, ?_⟩
        · rw [body?, hp]; rfl
        · rw [body?, withBody, rule?_rebody hp]; rfl
        · rw [hr, List.append_assoc]
          simpa using (Inlined.refl u).append (.inline (.refl v))
      · have hsame : (g.withBody p (u ++ t.successors ++ v)).body? (.symbol name) = g.body? (.symbol name) := by
          rw [body?, body?, withBody, rule?_rebody_of_ne hname]
        rw [hsame]
        cases g.body? (.symbol name) with
        | none => exact .inl ⟨rfl, rfl⟩
        | some l => exact .inr ⟨0, l, l, rfl, rfl, .refl l⟩

end WithBody

variable [Scalar α] [Numeral α] {g g' : Grammar α} {q : String} {b : List (Successor α)}
  {m n n' : Nat} {a a' : State α} {e : Ending α Unit}

theorem Inlines.perform (hg : g.Inlines g' q b) {l l' ys w : List (Successor α)}
    (hl : Inlined q b m l l') (s : Successor α) (c : Scene α) :
    Lockstep q b (some (g.perform s ⟨l, ys, w⟩ c)) (some (g'.perform s ⟨l', ys, w⟩ c)) := by
  rcases hg.bodies s with ⟨hb, hb'⟩ | ⟨k, u, u', hb, hb', hu⟩
  · have ha : g.act s c = g'.act s c := act_congr fun op _ n _ => congrFun hg.attr n
    cases hact : g.act s c with
    | error e =>
      rw [perform_of_act_error hb hact, perform_of_act_error hb' (ha ▸ hact)]
      exact .broken _
    | ok r =>
      rw [perform_of_act hb hact, perform_of_act hb' (ha ▸ hact)]
      exact .ok (.mk hl)
  · rw [perform_of_body hb, perform_of_body hb']
    exact .ok (.mk (hu.append hl))

/-- Where the body is inlined already it is first put there in the other derivation; otherwise both
do the same. -/
theorem Inlines.step (hg : g.Inlines g' q b) (h : a.Inlined q b m a') :
    (∃ k x, m = k + 1 ∧ g.step a = some (.ok x) ∧ x.Inlined q b k a') ∨
      Lockstep q b (g.step a) (g'.step a') := by
  obtain ⟨hl⟩ := h
  rename_i ys w c
  cases hl with
  | nil =>
    right
    rw [step_congr, step_congr]
    cases ys ++ w with
    | nil => exact .done
    | cons s rest => exact hg.perform .nil s c
  | keep s hl => exact .inr (hg.perform hl s c)
  | inline hl =>
    refine .inl ⟨_, _, rfl, congrArg some (perform_of_body hg.inlined), .mk ?_⟩
    simpa using (Inlined.refl b).append hl

theorem Inlines.align (hg : g.Inlines g' q b) (h : a.Inlined q b m a') :
    ∃ k x j, g.Exec a k x ∧ x.Inlined q b j a' ∧ Lockstep q b (g.step x) (g'.step a') := by
  induction m generalizing a with
  | zero =>
    rcases hg.step h with ⟨k, x, hk, -⟩ | hlock
    · cases hk
    · exact ⟨0, a, 0, .refl a, h, hlock⟩
  | succ m ih =>
    rcases hg.step h with ⟨k, x, hk, hs, hx⟩ | hlock
    · cases hk
      obtain ⟨k, y, j, hxy, hy, hlock⟩ := ih hx
      exact ⟨k + 1, y, j, .succ hs hxy, hy, hlock⟩
    · exact ⟨0, a, m + 1, .refl a, h, hlock⟩

theorem Inlines.ends (hg : g.Inlines g' q b) (h : g.Ends none a n e) (ha : a.Inlined q b m a')
    (hn : n' ≤ n) : ∃ e', g'.Ends none a' n' e' ∧ e'.NoLater e := by
  induction h generalizing m a' n' with
  | exceeded hl => cases hl
  | done hs =>
    rcases hg.step ha with ⟨k, x, -, hx, -⟩ | hlock
    · rw [hs] at hx
      cases hx
    · obtain ⟨-⟩ := ha
      exact ⟨_, .done (hlock.eq_none_iff.mp hs), .reached () _ hn⟩
  | broken _ hs =>
    rcases hg.step ha with ⟨k, x, -, hx, -⟩ | hlock
    · rw [hs] at hx
      cases hx
    · exact ⟨_, .broken (permits_none n') (hlock.eq_error_iff.mp hs), .broken _ (Nat.succ_le_succ hn)⟩
  | step _ hs ht ih =>
    rcases hg.step ha with ⟨k, x, -, hx, hinlined⟩ | hlock
    · -- the body is put in, and the other derivation waits
      rw [hs] at hx
      cases hx
      exact ih hinlined (Nat.le_succ_of_le hn)
    · obtain ⟨j, x', hs', hx⟩ := hlock.exists_right hs
      obtain ⟨e', he', hle⟩ := ih hx (Nat.succ_le_succ hn)
      exact ⟨e', .step (permits_none n') hs' he', hle⟩

theorem Inlines.ends_of_ends {e' : Ending α Unit} (hg : g.Inlines g' q b) (h : g'.Ends none a' n' e')
    (ha : a.Inlined q b m a') (hn : n' ≤ n) : ∃ e, g.Ends none a n e ∧ e'.NoLater e := by
  induction h generalizing m a n with
  | exceeded hl => cases hl
  | done hs' =>
    obtain ⟨k, x, j, hax, hx, hlock⟩ := hg.align ha
    have hs := hlock.eq_none_iff.mpr hs'
    obtain ⟨-⟩ := hx
    exact ⟨_, hax.ends (.done hs), .reached () _ (Nat.le_add_right_of_le hn)⟩
  | broken _ hs' =>
    obtain ⟨k, x, j, hax, -, hlock⟩ := hg.align ha
    have hs := hlock.eq_error_iff.mpr hs'
    exact ⟨_, hax.ends (.broken (permits_none _) hs), .broken _ (by omega)⟩
  | step _ hs' ht ih =>
    obtain ⟨k, x, j, hax, -, hlock⟩ := hg.align ha
    obtain ⟨i, y, hs, hy⟩ := hlock.exists_left hs'
    obtain ⟨e, he, hle⟩ := ih (n := n + k + 1) hy (by omega)
    exact ⟨e, hax.ends (.step (permits_none _) hs he), hle⟩

/-- Where the body that counts for `p` contains a symbol with a rule, the body of this rule may
stand in its place. Without a limit a derivation by the one grammar ends just if that by the other
does: with the same shapes finished and recorded or with the same error, and in no more steps where
the body is inlined. -/
theorem inlining_preserves_derivations (g : Grammar α) {p q : String} {u v : List (Successor α)}
    {r t : Rule α} (hp : g.rule? p = some r) (hr : r.successors = u ++ .symbol q :: v)
    (hq : g.rule? q = some t) (ax : Axiom α) (recording : Bool) :
    let g' := g.withBody p (u ++ t.successors ++ v)
    (∀ fuel d, g.derive? ⟨none, recording⟩ ax fuel = some (.ok d) →
      ∃ fuel' n, n ≤ d.steps ∧ g'.derive? ⟨none, recording⟩ ax fuel' = some (.ok { d with steps := n })) ∧
    (∀ fuel d, g'.derive? ⟨none, recording⟩ ax fuel = some (.ok d) →
      ∃ fuel' n, d.steps ≤ n ∧ g.derive? ⟨none, recording⟩ ax fuel' = some (.ok { d with steps := n })) ∧
    (∀ fuel e k, g.advance fuel 0 (.start ax recording) = .failed e k →
      ∃ fuel' k', k' ≤ k ∧ g'.advance fuel' 0 (.start ax recording) = .failed e k') ∧
    ∀ fuel e k, g'.advance fuel 0 (.start ax recording) = .failed e k →
      ∃ fuel' k', k ≤ k' ∧ g.advance fuel' 0 (.start ax recording) = .failed e k' := by
  intro g'
  have hg : g.Inlines g' q t.successors := inlines_withBody hp hr hq
  have hstart : (State.start ax recording).Inlined q t.successors 0 (.start ax recording) := .mk .nil
  refine ⟨fun fuel d hd => ?_, fun fuel d hd => ?_, fun fuel e k he => ?_, fun fuel e k he => ?_⟩
  · obtain ⟨c, hadv, hdc⟩ := derive?_eq_ok hd
    obtain ⟨e', he', hle⟩ := hg.ends (ends_reached_iff.mpr ⟨fuel, hadv⟩) hstart (Nat.le_refl 0)
    cases hle with
    | reached _ _ hn =>
      obtain ⟨fuel', hadv'⟩ := ends_reached_iff.mp he'
      exact ⟨fuel', _, hn, by rw [derive?_of_finished ⟨none, recording⟩ hadv', hdc]⟩
  · obtain ⟨c, hadv, hdc⟩ := derive?_eq_ok hd
    obtain ⟨e, he, hle⟩ := hg.ends_of_ends (ends_reached_iff.mpr ⟨fuel, hadv⟩) hstart (Nat.le_refl 0)
    cases hle with
    | reached _ _ hn =>
      obtain ⟨fuel', hadv'⟩ := ends_reached_iff.mp he
      exact ⟨fuel', _, hn, by rw [derive?_of_finished ⟨none, recording⟩ hadv', hdc]⟩
  · obtain ⟨e', he', hle⟩ := hg.ends (ends_broken_iff.mpr ⟨fuel, he⟩) hstart (Nat.le_refl 0)
    cases hle with
    | broken _ hk =>
      obtain ⟨fuel', hadv'⟩ := ends_broken_iff.mp he'
      exact ⟨fuel', _, hk, hadv'⟩
  · obtain ⟨e', he', hle⟩ := hg.ends_of_ends (ends_broken_iff.mpr ⟨fuel, he⟩) hstart (Nat.le_refl 0)
    cases hle with
    | broken _ hk =>
      obtain ⟨fuel', hadv'⟩ := ends_broken_iff.mp he'
      exact ⟨fuel', _, hk, hadv'⟩

/-- Two houses in a row, which is declared anew after an empty one, and a wall that takes stone after
stone. -/
def terrace : Grammar Float32 where
  statements :=
    let unity := .constant 1 .plain
    let lift := .operation (.translate ⟨unity, unity, unity⟩)
    [.rule ⟨"row", []⟩,
      .rule ⟨"terrace", [lift, .symbol "row", lift]⟩,
      .rule ⟨"row", [.operation (.split .x none (.ofItems
        [.step (.relative unity) (.symbol "house"), .step (.relative unity) (.symbol "house")]))]⟩,
      .rule ⟨"wall", [.symbol "stone", .symbol "wall"]⟩]

theorem inlining_preserves_derivations_terrace :
    (∃ row : Rule Float32, terrace.rule? "row" = some row ∧
      ∃ lift d fuel n, terrace.derive? ⟨none, true⟩ ⟨"terrace", .unitBox⟩ 9 = some (.ok d) ∧ n ≤ d.steps ∧
        (terrace.withBody "terrace" ([lift] ++ row.successors ++ [lift])).derive? ⟨none, true⟩
          ⟨"terrace", .unitBox⟩ fuel = some (.ok { d with steps := n })) ∧
    ∃ e fuel k, terrace.advance 9 0 (.start ⟨"wall", .unitBox⟩ true) = .failed e 4 ∧ k ≤ 4 ∧
      (terrace.withBody "wall" [.symbol "stone", .symbol "stone", .symbol "wall"]).advance fuel 0
        (.start ⟨"wall", .unitBox⟩ true) = .failed e k := by
  constructor
  · obtain ⟨lift, row, hterrace, hrow⟩ : ∃ lift row,
        terrace.rule? "terrace" = some ⟨"terrace", [lift] ++ .symbol "row" :: [lift]⟩ ∧
        terrace.rule? "row" = some row := ⟨_, _, rfl, rfl⟩
    obtain ⟨d, hd⟩ : ∃ d, terrace.derive? ⟨none, true⟩ ⟨"terrace", .unitBox⟩ 9 = some (.ok d) := ⟨_, rfl⟩
    obtain ⟨hok, -⟩ := inlining_preserves_derivations terrace hterrace rfl hrow ⟨"terrace", .unitBox⟩ true
    obtain ⟨fuel, n, hn, hd'⟩ := hok 9 d hd
    exact ⟨row, hrow, lift, d, fuel, n, hd, hn, hd'⟩
  · have hwall : terrace.rule? "wall" = some ⟨"wall", [.symbol "stone"] ++ .symbol "wall" :: []⟩ := rfl
    obtain ⟨e, he⟩ : ∃ e, terrace.advance 9 0 (.start ⟨"wall", .unitBox⟩ true) = .failed e 4 := ⟨_, rfl⟩
    obtain ⟨-, -, hfail, -⟩ := inlining_preserves_derivations terrace hwall rfl hwall ⟨"wall", .unitBox⟩ true
    obtain ⟨fuel, k, hk, he'⟩ := hfail 9 e 4 he
    exact ⟨e, fuel, k, he, hk, he'⟩

end Grammar
end ShapeGrammar
