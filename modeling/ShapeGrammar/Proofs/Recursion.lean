import ShapeGrammar.Proofs.Ending

/-! Derivation by recursion, without an agenda. A successor is rewritten in place, down through
the bodies of rules; then all that it yielded is derived in turn, each to its end, before its
neighbour. The main statement says that derivations by steps end in the same way. -/
namespace ShapeGrammar
variable {α : Type}

/-- An error that names the successor it was met at, unless it names one already or concerns the
derivation as a whole. -/
def Error.metAt [Numeral α] (e : Error) (s : Successor α) : Error :=
  if e.isSettled then e else .within s.text e

theorem Error.isSettled_metAt [Numeral α] (e : Error) (s : Successor α) :
    (e.metAt s).isSettled = true := by
  rw [metAt]
  split
  · assumption
  · rfl

theorem Error.metAt_of_isSettled [Numeral α] {e : Error} (h : e.isSettled = true) (s : Successor α) :
    e.metAt s = e := by
  simp [metAt, h]

variable [Scalar α] [Numeral α]

namespace Grammar

/-- Rewrites the successors of a body in place, one after the other, and gathers what they yield.
Every successor counts as a step, whether it is replaced by a body or acts on a shape. -/
inductive Rewrites (g : Grammar α) (limit : Option Nat) :
    List (Successor α) → Scene α → Nat → Ending α (List (Successor α)) → Prop
  | nil (c n) : Rewrites g limit [] c n (.reached [] c n)
  | exceeded {s ss c n l} : limit = some l → l ≤ n →
      Rewrites g limit (s :: ss) c n (.broken (.limitExceeded l) n)
  | unfold {s ss b c n ys d m r} : Permits limit n → g.body? s = some b →
      Rewrites g limit b c (n + 1) (.reached ys d m) → Rewrites g limit ss d m r →
      Rewrites g limit (s :: ss) c n (r.yielding ys)
  | unfold_broken {s ss b c n err m} : Permits limit n → g.body? s = some b →
      Rewrites g limit b c (n + 1) (.broken err m) →
      Rewrites g limit (s :: ss) c n (.broken (err.metAt s) m)
  | act {s ss c n ys d r} : Permits limit n → g.body? s = none → g.act s c = .ok (ys, d) →
      Rewrites g limit ss d (n + 1) r → Rewrites g limit (s :: ss) c n (r.yielding ys)
  | act_broken {s ss c n err} : Permits limit n → g.body? s = none → g.act s c = .error err →
      Rewrites g limit (s :: ss) c n (.broken (err.metAt s) (n + 1))

/-- Derives successors from left to right: each is rewritten in place, then what it yielded is
derived to the end, then its right neighbour. -/
inductive Derives (g : Grammar α) (limit : Option Nat) :
    List (Successor α) → Scene α → Nat → Ending α Unit → Prop
  | nil (c n) : Derives g limit [] c n (.reached () c n)
  | cons {s ss c n ys d m d' m' e} : g.Rewrites limit [s] c n (.reached ys d m) →
      Derives g limit ys d m (.reached () d' m') → Derives g limit ss d' m' e →
      Derives g limit (s :: ss) c n e
  | head_broken {s ss c n err m} : g.Rewrites limit [s] c n (.broken err m) →
      Derives g limit (s :: ss) c n (.broken err m)
  | yield_broken {s ss c n ys d m err m'} : g.Rewrites limit [s] c n (.reached ys d m) →
      Derives g limit ys d m (.broken err m') → Derives g limit (s :: ss) c n (.broken err m')

variable {g : Grammar α} {limit : Option Nat} {c d : Scene α} {n m : Nat} {s : Successor α}

theorem Rewrites.isSettled {ss : List (Successor α)} {r : Ending α (List (Successor α))}
    (h : g.Rewrites limit ss c n r) {err : Error} (hr : r = .broken err m) : err.isSettled = true := by
  induction h with
  | nil => cases hr
  | exceeded => cases hr; rfl
  | @unfold s ss b c n ys d k r hn hb hbody htail ihb iht =>
    cases r with
    | reached => cases hr
    | broken e k' => cases hr; exact iht rfl
  | unfold_broken => cases hr; exact Error.isSettled_metAt _ _
  | @act s ss c n ys d r hn hb ha htail ih =>
    cases r with
    | reached => cases hr
    | broken e k' => cases hr; exact ih rfl
  | act_broken => cases hr; exact Error.isSettled_metAt _ _

theorem Rewrites.of_append {a b : List (Successor α)} {r : Ending α (List (Successor α))}
    (h : g.Rewrites limit (a ++ b) c n r) :
    (∃ err m, r = .broken err m ∧ g.Rewrites limit a c n (.broken err m)) ∨
      ∃ ys d m r', g.Rewrites limit a c n (.reached ys d m) ∧ g.Rewrites limit b d m r' ∧
        r = r'.yielding ys := by
  induction a generalizing c n r with
  | nil => exact .inr ⟨[], c, n, r, .nil c n, h, by cases r <;> rfl⟩
  | cons s a ih =>
    cases h with
    | exceeded hl hn => exact .inl ⟨_, _, rfl, .exceeded hl hn⟩
    | unfold_broken hn hb hbody => exact .inl ⟨_, _, rfl, .unfold_broken hn hb hbody⟩
    | act_broken hn hb ha => exact .inl ⟨_, _, rfl, .act_broken hn hb ha⟩
    | @unfold _ _ _ _ _ ys _ _ r₁ hn hb hbody htail =>
      rcases ih htail with ⟨err, m, rfl, ha⟩ | ⟨zs, d, m, r', ha, hb', rfl⟩
      · exact .inl ⟨err, m, rfl, .unfold hn hb hbody ha⟩
      · refine .inr ⟨ys ++ zs, d, m, r', .unfold hn hb hbody ha, hb', ?_⟩
        cases r' <;> simp [Ending.yielding]
    | @act _ _ _ _ ys _ r₁ hn hb hact htail =>
      rcases ih htail with ⟨err, m, rfl, ha⟩ | ⟨zs, d, m, r', ha, hb', rfl⟩
      · exact .inl ⟨err, m, rfl, .act hn hb hact ha⟩
      · refine .inr ⟨ys ++ zs, d, m, r', .act hn hb hact ha, hb', ?_⟩
        cases r' <;> simp [Ending.yielding]

theorem Rewrites.cons_of_body {ss b : List (Successor α)} {r : Ending α (List (Successor α))}
    (hn : Permits limit n) (hb : g.body? s = some b) (h : g.Rewrites limit (b ++ ss) c (n + 1) r) :
    g.Rewrites limit (s :: ss) c n r := by
  rcases h.of_append with ⟨err, m, rfl, hbody⟩ | ⟨ys, d, m, r', hbody, htail, rfl⟩
  · rw [← Error.metAt_of_isSettled (hbody.isSettled rfl) s]
    exact .unfold_broken hn hb hbody
  · exact .unfold hn hb hbody htail

theorem Derives.of_append {a b : List (Successor α)} {e : Ending α Unit}
    (h : g.Derives limit (a ++ b) c n e) :
    (∃ err m, e = .broken err m ∧ g.Derives limit a c n (.broken err m)) ∨
      ∃ d m, g.Derives limit a c n (.reached () d m) ∧ g.Derives limit b d m e := by
  induction a generalizing c n with
  | nil => exact .inr ⟨c, n, .nil c n, h⟩
  | cons s a ih =>
    cases h with
    | head_broken hs => exact .inl ⟨_, _, rfl, .head_broken hs⟩
    | yield_broken hs hy => exact .inl ⟨_, _, rfl, .yield_broken hs hy⟩
    | cons hs hy htail =>
      rcases ih htail with ⟨err, m, rfl, ha⟩ | ⟨d, m, ha, hb⟩
      · exact .inl ⟨err, m, rfl, .cons hs hy ha⟩
      · exact .inr ⟨d, m, .cons hs hy ha, hb⟩

theorem Derives.cons_of_rewrites {ys ss : List (Successor α)} {e : Ending α Unit}
    (hs : g.Rewrites limit [s] c n (.reached ys d m)) (h : g.Derives limit (ys ++ ss) d m e) :
    g.Derives limit (s :: ss) c n e := by
  rcases h.of_append with ⟨err, k, rfl, hy⟩ | ⟨d', k, hy, htail⟩
  · exact .yield_broken hs hy
  · exact .cons hs hy htail

/-- A state read as recursion: its body is rewritten in place, then all that is yielded by then
and all that waits is derived. -/
def Resumes (g : Grammar α) (limit : Option Nat) (st : State α) (n : Nat) (e : Ending α Unit) : Prop :=
  ∃ r, g.Rewrites limit st.agenda.body st.scene n r ∧
    r.Leads (g.Derives limit <| st.agenda.yielded ++ · ++ st.agenda.waiting) e

theorem resumes_of_body_nil {ys w : List (Successor α)} {e : Ending α Unit} :
    g.Resumes limit ⟨⟨[], ys, w⟩, c⟩ n e ↔ g.Derives limit (ys ++ w) c n e := by
  constructor
  · rintro ⟨r, hr, he⟩
    cases hr
    simpa [Ending.Leads] using he
  · intro h
    exact ⟨_, .nil c n, by simpa [Ending.Leads] using h⟩

variable {a b : State α} {e : Ending α Unit}

theorem resumes_of_exceeded {l : Nat} (hl : limit = some l) (hn : l ≤ n) (hs : g.step a ≠ none) :
    g.Resumes limit a n (.broken (.limitExceeded l) n) := by
  rcases a with ⟨⟨_ | ⟨s, body⟩, yielded, waiting⟩, c⟩
  · rw [resumes_of_body_nil]
    rcases hw : yielded ++ waiting with _ | ⟨s, rest⟩
    · exact absurd (by simp [step, Agenda.next?, hw]) hs
    · exact .head_broken (.exceeded hl hn)
  · exact ⟨_, .exceeded hl hn, rfl⟩

theorem resumes_of_error {err : Error} (hn : Permits limit n) (hs : g.step a = some (.error err)) :
    g.Resumes limit a n (.broken err (n + 1)) := by
  obtain ⟨s, rest, hnext, hp⟩ := step_cases hs
  obtain ⟨hb, cause, ha, rfl⟩ := perform_error_cases hp
  have hmet : cause.metAt s = .within s.text cause := by simp [Error.metAt, isSettled_of_act ha]
  rcases a with ⟨⟨_ | ⟨t, body⟩, yielded, waiting⟩, c⟩
  · rw [resumes_of_body_nil]
    rcases hw : yielded ++ waiting with _ | ⟨t, ts⟩
    · simp [Agenda.next?, hw] at hnext
    · obtain ⟨rfl, rfl⟩ : t = s ∧ Agenda.ofList ts = rest := by simpa [Agenda.next?, hw] using hnext
      exact .head_broken (hmet ▸ .act_broken hn hb ha)
  · obtain ⟨rfl, rfl⟩ : t = s ∧ ⟨body, yielded, waiting⟩ = rest := by simpa [Agenda.next?] using hnext
    exact ⟨_, .act_broken hn hb ha, by rw [hmet]; rfl⟩

/-- The recursive reading of a state is that of the state one step ahead. -/
theorem resumes_of_step (hn : Permits limit n) (hs : g.step a = some (.ok b))
    (h : g.Resumes limit b (n + 1) e) : g.Resumes limit a n e := by
  obtain ⟨s, rest, hnext, hp⟩ := step_cases hs
  rcases a with ⟨⟨_ | ⟨t, body⟩, yielded, waiting⟩, c⟩
  · -- between two bodies: the next successor is rewritten alone, with all the rest waiting
    rw [resumes_of_body_nil]
    rcases hw : yielded ++ waiting with _ | ⟨t, ts⟩
    · simp [Agenda.next?, hw] at hnext
    obtain ⟨rfl, rfl⟩ : t = s ∧ Agenda.ofList ts = rest := by simpa [Agenda.next?, hw] using hnext
    rcases perform_cases hp with ⟨body, hb, rfl⟩ | ⟨hb, ys, d, ha, rfl⟩
    · obtain ⟨r, hr, he⟩ := h
      have hrs : g.Rewrites limit [t] c n r := .cons_of_body hn hb hr
      cases r with
      | reached ys d m => exact .cons_of_rewrites hrs he
      | broken err m =>
        cases he
        exact .head_broken hrs
    · have hrs : g.Rewrites limit [t] c n (.reached (ys ++ []) d (n + 1)) :=
        .act hn hb ha (.nil d (n + 1))
      rw [List.append_nil] at hrs
      exact .cons_of_rewrites hrs (resumes_of_body_nil.mp h)
  · -- inside a body, whose rest is rewritten after this successor
    obtain ⟨rfl, rfl⟩ : t = s ∧ ⟨body, yielded, waiting⟩ = rest := by simpa [Agenda.next?] using hnext
    rcases perform_cases hp with ⟨body', hb, rfl⟩ | ⟨hb, ys, d, ha, rfl⟩
    · obtain ⟨r, hr, he⟩ := h
      exact ⟨r, .cons_of_body hn hb hr, he⟩
    · obtain ⟨r, hr, he⟩ := h
      refine ⟨r.yielding ys, .act hn hb ha hr, ?_⟩
      rw [Ending.leads_yielding]
      simpa [Agenda.yield, List.append_assoc] using he

theorem resumes_of_ends (h : g.Ends limit a n e) : g.Resumes limit a n e := by
  induction h with
  | done h =>
    have hn := (Agenda.eq_ofList_nil_iff _).mpr (step_eq_none.mp h)
    exact ⟨.reached [] _ _, by rw [hn]; exact .nil _ _, by rw [hn]; exact .nil _ _⟩
  | exceeded hl hn h => exact resumes_of_exceeded hl hn h
  | broken hn h => exact resumes_of_error hn h
  | step hn h ht ih => exact resumes_of_step hn h ih

/-- Rewriting a body in place is a run through it, whatever else there is to do. -/
theorem Rewrites.ends {ss : List (Successor α)} {r : Ending α (List (Successor α))}
    (h : g.Rewrites limit ss c n r) (body yielded waiting : List (Successor α)) (e : Ending α Unit)
    (hr : r.Leads (fun ys d => g.Ends limit ⟨⟨body, yielded ++ ys, waiting⟩, d⟩) e) :
    g.Ends limit ⟨⟨ss ++ body, yielded, waiting⟩, c⟩ n e := by
  induction h generalizing body yielded e with
  | nil c n => simpa [Ending.Leads] using hr
  | exceeded hl hn =>
    cases hr
    exact .exceeded hl hn (by simp [step])
  | unfold hn hb hbody htail ihb iht =>
    rw [Ending.leads_yielding] at hr
    refine .step hn (congrArg some (perform_of_body hb)) (ihb (_ ++ body) yielded e ?_)
    exact iht body _ e (by simpa [List.append_assoc] using hr)
  | unfold_broken hn hb hbody ih =>
    rw [Error.metAt_of_isSettled (hbody.isSettled rfl)] at hr
    exact .step hn (congrArg some (perform_of_body hb)) (ih (_ ++ body) yielded e hr)
  | act hn hb ha htail ih =>
    rw [Ending.leads_yielding] at hr
    refine .step hn (congrArg some (perform_of_act hb ha)) (ih body _ e ?_)
    simpa [List.append_assoc] using hr
  | act_broken hn hb ha =>
    cases hr
    rw [Error.metAt, if_neg (by simp [isSettled_of_act ha])]
    exact .broken hn (congrArg some (perform_of_act_error hb ha))

theorem Derives.ends {ss : List (Successor α)} {r : Ending α Unit} (h : g.Derives limit ss c n r)
    (later : List (Successor α)) (e : Ending α Unit)
    (hr : r.Leads (fun _ d => g.Ends limit ⟨.ofList later, d⟩) e) :
    g.Ends limit ⟨.ofList (ss ++ later), c⟩ n e := by
  induction h generalizing later e with
  | nil c n => exact hr
  | @cons s ss _ _ _ _ _ _ _ _ hs hy htail ihy iht =>
    have hrest := ihy (ss ++ later) e (iht later e hr)
    exact (hs.ends [] [] _ e (hrest.congr step_congr.symm rfl)).congr step_singleton rfl
  | head_broken hs => exact (hs.ends [] [] _ e hr).congr step_singleton rfl
  | @yield_broken s ss _ _ _ _ _ _ _ hs hy ih =>
    have hrest := ih (ss ++ later) e hr
    exact (hs.ends [] [] _ e (hrest.congr step_congr.symm rfl)).congr step_singleton rfl

theorem derives_iff_ends {w : List (Successor α)} :
    g.Derives limit w c n e ↔ g.Ends limit ⟨.ofList w, c⟩ n e := by
  constructor
  · intro h
    have hr : e.Leads (fun _ d => g.Ends limit ⟨.ofList [], d⟩) e := by
      cases e with
      | reached v d m => exact .done rfl
      | broken err m => rfl
    simpa using h.ends [] e hr
  · intro h
    simpa using resumes_of_body_nil.mp (resumes_of_ends h)

/-- A derivation by steps through an agenda ends just as the derivation by recursion, with the same
answer, or in general with the same scene or error after the same number of steps; and a list of
successors in front of another is derived to its end first. -/
theorem derivation_refines_recursion (g : Grammar α) :
    (∀ (config : Config) (ax : Axiom α) (r : Except Error (Derivation α)),
      (∃ fuel, g.derive? config ax fuel = some r) ↔
        ∃ e, g.Derives config.limit [.symbol ax.symbol] ((Scene.empty config.recording).push ax.shape)
          0 e ∧ e.answer = r) ∧
    (∀ (limit : Option Nat) (w : List (Successor α)) (c : Scene α) (n : Nat) (e : Ending α Unit),
      (∃ fuel, (g.advance (room limit n fuel) n ⟨.ofList w, c⟩).ending? limit = some e) ↔
        g.Derives limit w c n e) ∧
    ∀ (w₁ w₂ : List (Successor α)) (c : Scene α) (fuel n : Nat),
      g.advance fuel n ⟨.ofList (w₁ ++ w₂), c⟩ =
        match g.advance fuel n ⟨.ofList w₁, c⟩ with
        | .finished d m => g.advance (fuel - (m - n)) m ⟨.ofList w₂, d⟩
        | .failed err m => .failed err m
        | .suspended st m => .suspended (st.queue w₂) m := by
  refine ⟨fun config ax r => ?_, fun limit w c n e => ?_, fun w₁ w₂ c fuel n => ?_⟩
  · rw [derive?_eq_some_iff]
    simp only [derives_iff_ends]
    rfl
  · rw [derives_iff_ends, ends_iff]
  · exact advance_queue w₂ fuel n ⟨.ofList w₁, c⟩

end Grammar
end ShapeGrammar
