import ShapeGrammar.Proofs.Locality
import ShapeGrammar.Proofs.Recursion
import ShapeGrammar.Proofs.Tally

/-! Derivation by recursion under a limit. The bodies of rules and the successors they yield share
one count of steps. Neither recursion lowers it, and each step raises it, so what is left of the
limit bounds them both: with a limit the recursion is a function, and it comes to at most one
successor more than it may rewrite. -/
namespace ShapeGrammar
variable {α : Type}

variable [Scalar α] [Numeral α]

namespace Grammar

/-- Rewrites successors in place under a limit, after `n` steps. The rest of a body is rewritten under
what its beginning has left of the limit. -/
def rewriteWithin (g : Grammar α) (limit : Nat) (ss : List (Successor α)) (c : Scene α) (n : Nat) :
    { t : Tally α (List (Successor α)) // t.Within limit n ss.length } :=
  match ss with
  | [] => ⟨.idle [] c n, .idle [] c⟩
  | s :: ss =>
    if hn : limit ≤ n then ⟨.refusal limit n s, .refusal s hn⟩
    else
      match g.body? s with
      | some b =>
        match g.rewriteWithin limit b c (n + 1) with
        | ⟨⟨es, rs, .reached ys d m⟩, h⟩ =>
          have _hm : n + 1 ≤ m := h.le_steps
          let t := g.rewriteWithin limit ss d m
          ⟨((Tally.append ⟨es, rs, .reached ys d m⟩ t.1).cons s).yielding ys,
            .yielding ys (.cons s hn ((h.append rfl t.2).mono (Nat.le_add_left ..)))⟩
        | ⟨⟨es, rs, .broken err m⟩, h⟩ =>
          ⟨.cons s ⟨es, rs, .broken (err.metAt s) m⟩,
            .cons s hn (h.broken fun he => Error.metAt_of_isSettled (he ▸ rfl) s)⟩
      | none =>
        match g.act s c with
        | .ok (ys, d) =>
          let t := g.rewriteWithin limit ss d (n + 1)
          ⟨(t.1.cons s).yielding ys, .yielding ys (.cons s hn t.2)⟩
        | .error err => ⟨.cons s (.failure (err.metAt s) (n + 1)), .cons s hn (.failure _)⟩
termination_by limit - n

def deriveWithin (g : Grammar α) (limit : Nat) (w : List (Successor α)) (c : Scene α) (n : Nat) :
    { t : Tally α Unit // t.Within limit n 0 } :=
  match w with
  | [] => ⟨.idle () c n, .idle () c⟩
  | s :: w =>
    match g.rewriteWithin limit [s] c n with
    | ⟨⟨es, rs, .reached ys d m⟩, h⟩ =>
      have _hm : limit - m < limit - n := h.left_lt
      let t := g.deriveWithin limit (ys ++ w) d m
      ⟨Tally.append ⟨es, rs, .reached ys d m⟩ t.1, (h.append rfl t.2).mono (Nat.zero_le _)⟩
    | ⟨⟨es, rs, .broken err m⟩, h⟩ => ⟨⟨es, rs, .broken err m⟩, h.broken fun _ => rfl⟩
termination_by limit - n

theorem rewrites_rewriteWithin (g : Grammar α) (limit : Nat) (ss : List (Successor α)) (c : Scene α)
    (n : Nat) :
    g.Rewrites (some limit) ss c n (g.rewriteWithin limit ss c n).1.ending := by
  fun_induction g.rewriteWithin limit ss c n with
  | case1 c n => exact .nil c n
  | case2 c n s ss hn => exact .exceeded rfl hn
  | case3 c n s ss hn b hb es rs ys d m h heq hm t ihb ihss =>
    rw [heq] at ihb
    exact .unfold (by simpa [Permits] using hn) hb ihb ihss
  | case4 c n s ss hn b hb es rs err m h heq ihb =>
    rw [heq] at ihb
    exact .unfold_broken (by simpa [Permits] using hn) hb ihb
  | case5 c n s ss hn hb ys d ha t ih => exact .act (by simpa [Permits] using hn) hb ha ih
  | case6 c n s ss hn hb err ha => exact .act_broken (by simpa [Permits] using hn) hb ha

theorem derives_deriveWithin (g : Grammar α) (limit : Nat) (w : List (Successor α)) (c : Scene α)
    (n : Nat) :
    g.Derives (some limit) w c n (g.deriveWithin limit w c n).1.ending := by
  fun_induction g.deriveWithin limit w c n with
  | case1 c n => exact .nil c n
  | case2 c n s w es rs ys d m h heq hm t ih =>
    have hs := g.rewrites_rewriteWithin limit [s] c n
    rw [heq] at hs
    exact .cons_of_rewrites hs ih
  | case3 c n s w es rs err m h heq =>
    have hs := g.rewrites_rewriteWithin limit [s] c n
    rw [heq] at hs
    exact .head_broken hs

/-- The recursion comes to the successors that the steps come to, whatever else there is to do. -/
theorem follows_rewriteWithin (g : Grammar α) (limit : Nat) (ss : List (Successor α)) (c : Scene α)
    (n : Nat) (body yielded waiting : List (Successor α)) :
    (g.rewriteWithin limit ss c n).1.Follows g limit n ⟨⟨ss ++ body, yielded, waiting⟩, c⟩
      fun ys d => ⟨⟨body, yielded ++ ys, waiting⟩, d⟩ := by
  fun_induction g.rewriteWithin limit ss c n generalizing body yielded with
  | case1 c n => simpa using Tally.Follows.idle (fun ys d => ⟨⟨body, yielded ++ ys, waiting⟩, d⟩) [] c
  | case2 c n s ss hn => exact .refusal hn rfl
  | case3 c n s ss hn b hb es rs ys d m h heq hm t ihb ihss =>
    specialize ihb (ss ++ body) yielded
    specialize ihss body (yielded ++ ys)
    rw [heq] at ihb
    simp only [List.append_assoc] at ihss
    exact .yielding ys (.cons hn rfl (perform_of_body hb) (.append h rfl ihb ihss))
  | case4 c n s ss hn b hb es rs err m h heq ihb =>
    specialize ihb (ss ++ body) yielded
    rw [heq] at ihb
    exact .cons hn rfl (perform_of_body hb) ihb
  | case5 c n s ss hn hb ys d ha t ih =>
    specialize ih body (yielded ++ ys)
    simp only [List.append_assoc] at ih
    exact .yielding ys (.cons hn rfl (perform_of_act hb ha) ih)
  | case6 c n s ss hn hb err ha => exact .failure _ _ hn rfl (perform_of_act_error hb ha)

theorem follows_rewriteWithin_head (g : Grammar α) (limit : Nat) (s : Successor α)
    (w : List (Successor α)) (c : Scene α) (n : Nat) :
    (g.rewriteWithin limit [s] c n).1.Follows g limit n ⟨.ofList (s :: w), c⟩
      fun ys d => ⟨.ofList (ys ++ w), d⟩ :=
  (g.follows_rewriteWithin limit [s] c n [] [] w).congr rfl rfl
    (fun ys d => by simp [Agenda.next?, Agenda.ofList]) fun _ _ => rfl

theorem follows_deriveWithin (g : Grammar α) (limit : Nat) (w : List (Successor α)) (c : Scene α)
    (n : Nat) :
    (g.deriveWithin limit w c n).1.Follows g limit n ⟨.ofList w, c⟩ fun _ d => ⟨.ofList [], d⟩ := by
  fun_induction g.deriveWithin limit w c n with
  | case1 c n => exact .idle (fun _ d => ⟨.ofList [], d⟩) () c
  | case2 c n s w es rs ys d m h heq hm t ih =>
    have hs := g.follows_rewriteWithin_head limit s w c n
    rw [heq] at hs
    exact .append h rfl hs ih
  | case3 c n s w es rs err m h heq =>
    have hs := g.follows_rewriteWithin_head limit s w c n
    rw [heq] at hs
    exact hs

/-- With a limit every derivation has an answer, that of the recursion. The recursion comes to the
successors that the steps come to, no more than one beyond the limit, which is refused; it rewrites
no more than the limit, and if it succeeds it has rewritten all it came to and reports as many steps. -/
theorem limit_stops_derivation (g : Grammar α) (limit : Nat) (recording : Bool) (ax : Axiom α) :
    let start := State.start ax recording
    let t := (g.deriveWithin limit [.symbol ax.symbol] start.scene 0).1
    (∀ fuel, g.derive? ⟨some limit, recording⟩ ax fuel = some t.ending.answer) ∧
    (t.entered = g.visits (limit + 1) start ∧ t.rewritten = g.visits limit start) ∧
    t.entered.length ≤ limit + 1 ∧ t.rewritten.length ≤ limit ∧
    (t.entered = t.rewritten ∨
      t.ending.answer = .error (.limitExceeded limit) ∧ ∃ s, t.entered = t.rewritten ++ [s]) ∧
    ∀ d, t.ending.answer = .ok d →
      d.steps ≤ limit ∧ d.steps = t.rewritten.length ∧ t.entered = t.rewritten := by
  intro start t
  have ht : t.Within limit 0 0 := (g.deriveWithin limit _ _ 0).2
  have hderives : g.Derives (some limit) [.symbol ax.symbol] start.scene 0 t.ending :=
    derives_deriveWithin _ _ _ _ 0
  have hfollows := g.follows_deriveWithin limit [.symbol ax.symbol] start.scene 0
  have hsteps : t.ending.steps = t.rewritten.length := by rw [ht.counted, Nat.zero_add]
  have hlimit : t.rewritten.length ≤ limit := by rw [← hsteps]; simpa using ht.bounded
  refine ⟨fun fuel => ?_, hfollows.eq_visits ht fun _ _ => rfl, ?_, hlimit, ?_, fun d hd => ?_⟩
  · obtain ⟨fuel', hf⟩ := (derive?_eq_some_iff ⟨some limit, recording⟩ ax t.ending.answer).mpr
      ⟨t.ending, derives_iff_ends.mp hderives, rfl⟩
    exact hf
  · rcases ht.last with heq | ⟨s, heq, -⟩
    · rw [heq]
      exact Nat.le_succ_of_le hlimit
    · rw [heq, List.length_append]
      exact Nat.succ_le_succ hlimit
  · exact ht.last.imp_right fun ⟨s, heq, he⟩ => ⟨by rw [he]; rfl, s, heq⟩
  · cases he : t.ending with
    | broken e m => rw [he] at hd; cases hd
    | reached v c m =>
      have hm : t.ending.steps = m := by rw [he]; rfl
      obtain rfl : (⟨c.finished.toList, c.record.toList, m⟩ : Derivation α) = d := by
        rw [he] at hd
        exact Except.ok.inj hd
      exact ⟨by rw [← hm, hsteps]; exact hlimit, by rw [← hm, hsteps], ht.entered_eq he⟩

theorem limit_stops_derivation_halves :
    ∃ (t : Tally Float32 Unit) (d : Derivation Float32), t.ending.answer = .ok d ∧
      halves.derive? ⟨some 8, true⟩ ⟨"house", .unitBox⟩ 0 = some (.ok d) ∧ d.steps = 8 ∧
      t.rewritten.length = 8 ∧ t.entered = t.rewritten := by
  obtain ⟨hanswer, -, -, -, -, hok⟩ := limit_stops_derivation halves 8 true ⟨"house", .unitBox⟩
  obtain ⟨d, hd, hsteps⟩ : ∃ d, halves.derive? ⟨some 8, true⟩ ⟨"house", .unitBox⟩ 0 = some (.ok d) ∧
      d.steps = 8 := ⟨_, rfl, rfl⟩
  have ht := Option.some.inj ((hanswer 0).symm.trans hd)
  obtain ⟨-, hcount, hall⟩ := hok d ht
  exact ⟨_, d, ht, hd, hsteps, hcount.symm.trans hsteps, hall⟩

end Grammar
end ShapeGrammar
