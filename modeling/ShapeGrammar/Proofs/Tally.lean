import ShapeGrammar.Proofs.Ending

/-! What a stretch of a derivation under a limit did: the successors it came to, those it rewrote and
how it ended. Stretches are put together from shorter ones; the counts add up, and all along the
successors are those that the steps of the derivation come to. -/
namespace ShapeGrammar
variable {α β σ : Type}

namespace Ending

def steps : Ending α β → Nat
  | reached _ _ n | broken _ n => n

@[simp] theorem steps_reached (v : β) (c : Scene α) (n : Nat) : (reached v c n).steps = n := rfl
@[simp] theorem steps_broken (e : Error) (n : Nat) : (broken e n : Ending α β).steps = n := rfl

@[simp] theorem steps_yielding (ys : List σ) (r : Ending α (List σ)) :
    (r.yielding ys).steps = r.steps := by
  cases r <;> rfl

end Ending

/-- The successors that a stretch of a derivation came to, those of them that it rewrote, and how it
ended. -/
structure Tally (α β : Type) where
  entered : List (Successor α)
  rewritten : List (Successor α)
  ending : Ending α β

namespace Tally

def idle (v : β) (c : Scene α) (n : Nat) : Tally α β := ⟨[], [], .reached v c n⟩

def failure (e : Error) (n : Nat) : Tally α β := ⟨[], [], .broken e n⟩

def refusal (limit n : Nat) (s : Successor α) : Tally α β := ⟨[s], [], .broken (.limitExceeded limit) n⟩

def cons (s : Successor α) (t : Tally α β) : Tally α β :=
  ⟨s :: t.entered, s :: t.rewritten, t.ending⟩

def append {γ : Type} (t : Tally α γ) (u : Tally α β) : Tally α β :=
  ⟨t.entered ++ u.entered, t.rewritten ++ u.rewritten, u.ending⟩

def yielding (ys : List σ) (t : Tally α (List σ)) : Tally α (List σ) :=
  { t with ending := t.ending.yielding ys }

/-- After `n` steps, with `k` successors to come to: all that is rewritten is counted, never beyond the
limit, and only the last successor come to can be refused. -/
structure Within (limit n k : Nat) (t : Tally α β) : Prop where
  counted : t.ending.steps = n + t.rewritten.length
  bounded : t.ending.steps ≤ max n limit
  last : t.entered = t.rewritten ∨
    ∃ s, t.entered = t.rewritten ++ [s] ∧ t.ending = .broken (.limitExceeded limit) (max n limit)
  all : ∀ v c m, t.ending = .reached v c m → k ≤ t.rewritten.length

namespace Within
variable {limit n k : Nat}

theorem idle (v : β) (c : Scene α) : (Tally.idle v c n).Within limit n 0 where
  counted := rfl
  bounded := Nat.le_max_left n limit
  last := .inl rfl
  all := fun _ _ _ _ => Nat.zero_le _

theorem failure (e : Error) : (Tally.failure e n : Tally α β).Within limit n k where
  counted := rfl
  bounded := Nat.le_max_left n limit
  last := .inl rfl
  all := fun _ _ _ h => by cases h

theorem refusal (s : Successor α) (hn : limit ≤ n) :
    (Tally.refusal limit n s : Tally α β).Within limit n k where
  counted := rfl
  bounded := Nat.le_max_left n limit
  last := .inr ⟨s, rfl, by rw [Nat.max_eq_left hn]; rfl⟩
  all := fun _ _ _ h => by cases h

theorem cons {t : Tally α β} (s : Successor α) (hn : ¬ limit ≤ n) (h : t.Within limit (n + 1) k) :
    (t.cons s).Within limit n (k + 1) := by
  have hmax : max (n + 1) limit = max n limit := by omega
  refine ⟨?_, hmax ▸ h.bounded, ?_, fun v c m hm => Nat.succ_le_succ (h.all v c m hm)⟩
  · have := h.counted
    simp only [Tally.cons, List.length_cons]
    omega
  · rcases h.last with heq | ⟨u, heq, he⟩
    · exact .inl (congrArg (List.cons s) heq)
    · exact .inr ⟨u, congrArg (List.cons s) heq, hmax ▸ he⟩

theorem le_steps {t : Tally α β} (h : t.Within limit n k) : n ≤ t.ending.steps := by
  rw [h.counted]
  exact Nat.le_add_right n _

theorem mono {t : Tally α β} {j : Nat} (h : t.Within limit n k) (hj : j ≤ k) : t.Within limit n j :=
  { h with all := fun v c m hm => Nat.le_trans hj (h.all v c m hm) }

theorem entered_eq {t : Tally α β} (h : t.Within limit n k) {v : β} {c : Scene α} {m : Nat}
    (ht : t.ending = .reached v c m) : t.entered = t.rewritten := by
  rcases h.last with heq | ⟨s, -, he⟩
  · exact heq
  · rw [ht] at he
    cases he

theorem append {γ : Type} {t : Tally α γ} {u : Tally α β} {j m : Nat} {v : γ} {c : Scene α}
    (ht : t.Within limit n j) (he : t.ending = .reached v c m) (hu : u.Within limit m k) :
    (t.append u).Within limit n (j + k) := by
  have hm : m = n + t.rewritten.length := by simpa [he] using ht.counted
  have hbound : m ≤ max n limit := by simpa [he] using ht.bounded
  have hmax : max m limit = max n limit := by omega
  refine ⟨?_, hmax ▸ hu.bounded, ?_, fun w d i hi => ?_⟩
  · have := hu.counted
    simp only [Tally.append, List.length_append]
    omega
  · rw [Tally.append, ht.entered_eq he]
    rcases hu.last with heq | ⟨s, heq, hlast⟩
    · exact .inl (by rw [heq])
    · exact .inr ⟨s, by rw [heq, List.append_assoc], hmax ▸ hlast⟩
  · rw [Tally.append, List.length_append]
    exact Nat.add_le_add (ht.all v c m he) (hu.all w d i hi)

theorem yielding {t : Tally α (List σ)} (ys : List σ) (h : t.Within limit n k) :
    (t.yielding ys).Within limit n k := by
  obtain ⟨es, rs, r⟩ := t
  obtain ⟨hcounted, hbounded, hlast, hall⟩ := h
  cases r with
  | broken e m => exact ⟨hcounted, hbounded, hlast, hall⟩
  | reached zs c m =>
    refine ⟨hcounted, hbounded, hlast.imp_right fun ⟨s, _, he⟩ => (by cases he), fun v d i hi => ?_⟩
    exact hall zs c m rfl

/-- Another error may stand for one that is not the limit's, and no value is lost. -/
theorem broken {γ : Type} {es rs : List (Successor α)} {e e' : Error} {j m : Nat}
    (he : e = .limitExceeded limit → e' = e) (h : (⟨es, rs, .broken e m⟩ : Tally α γ).Within limit n j) :
    (⟨es, rs, .broken e' m⟩ : Tally α β).Within limit n k where
  counted := h.counted
  bounded := h.bounded
  last := h.last.imp_right fun ⟨s, heq, hlast⟩ => by
    obtain ⟨rfl, rfl⟩ : e = .limitExceeded limit ∧ m = max n limit := by simpa using hlast
    exact ⟨s, heq, by rw [he rfl]⟩
  all := fun _ _ _ h => by cases h

end Within
end Tally

theorem Tally.Within.left_lt {limit n k m : Nat} {es rs : List (Successor α)} {v : β} {c : Scene α}
    (h : (⟨es, rs, .reached v c m⟩ : Tally α β).Within limit n (k + 1)) : limit - m < limit - n := by
  have hcounted : m = n + rs.length := h.counted
  have hbounded : m ≤ max n limit := h.bounded
  have hall : k + 1 ≤ rs.length := h.all v c m rfl
  omega

namespace Tally
variable [Scalar α] [Numeral α] {g : Grammar α} {a b : State α} {limit n k : Nat}

/-- The successors in a tally are those that the steps from a state come to; if the stretch reached
its end, further steps are steps from the state `next`. -/
def Follows (g : Grammar α) (limit n : Nat) (a : State α) (next : β → Scene α → State α) (t : Tally α β) :
    Prop :=
  match t.ending with
  | .reached v c _ => ∀ k, g.visits (t.rewritten.length + k) a = t.rewritten ++ g.visits k (next v c)
  | .broken _ _ => g.visits (limit - n) a = t.rewritten ∧ g.visits (limit - n + 1) a = t.entered

namespace Follows
variable {s : Successor α} {agenda : Agenda (Successor α)} {next next' : β → Scene α → State α}

theorem congr {t : Tally α β} (h : t.Follows g limit n a next)
    (ha : a.agenda.next? = b.agenda.next?) (hc : a.scene = b.scene)
    (hn : ∀ v c, (next v c).agenda.next? = (next' v c).agenda.next?)
    (hd : ∀ v c, (next v c).scene = (next' v c).scene) : t.Follows g limit n b next' := by
  obtain ⟨es, rs, r⟩ := t
  cases r with
  | reached v c m =>
    intro k
    rw [← Grammar.visits_congr ha hc, ← Grammar.visits_congr (hn v c) (hd v c)]
    exact h k
  | broken e m =>
    simp only [Follows, ← Grammar.visits_congr ha hc]
    exact h

theorem idle (next : β → Scene α → State α) (v : β) (c : Scene α) :
    (Tally.idle v c n).Follows g limit n (next v c) next := by
  intro k
  simp [Tally.idle]

theorem refusal (hn : limit ≤ n) (ha : a.agenda.next? = some (s, agenda)) :
    (Tally.refusal limit n s : Tally α β).Follows g limit n a next := by
  simp only [Follows, Tally.refusal, Nat.sub_eq_zero_of_le hn]
  exact ⟨rfl, Grammar.visits_one ha⟩

theorem failure {e : Error} (err : Error) (m : Nat) (hn : ¬ limit ≤ n)
    (ha : a.agenda.next? = some (s, agenda)) (hp : g.perform s agenda a.scene = .error e) :
    ((Tally.failure err m : Tally α β).cons s).Follows g limit n a next := by
  obtain ⟨j, hj⟩ : ∃ j, limit - n = j + 1 := ⟨limit - n - 1, by omega⟩
  simp only [Follows, Tally.failure, Tally.cons, hj]
  exact ⟨Grammar.visits_of_error ha hp j, Grammar.visits_of_error ha hp (j + 1)⟩

theorem cons {t : Tally α β} (hn : ¬ limit ≤ n) (ha : a.agenda.next? = some (s, agenda))
    (hp : g.perform s agenda a.scene = .ok b) (h : t.Follows g limit (n + 1) b next) :
    (t.cons s).Follows g limit n a next := by
  obtain ⟨es, rs, r⟩ := t
  cases r with
  | reached v c m =>
    intro k
    have hvisits : g.visits (rs.length + k) b = rs ++ g.visits k (next v c) := h k
    simp only [Tally.cons, List.length_cons]
    rw [Nat.add_right_comm, Grammar.visits_of_ok ha hp, hvisits, List.cons_append]
  | broken e m =>
    obtain ⟨hrewritten, hentered⟩ := h
    have hleft : limit - n = limit - (n + 1) + 1 := by omega
    simp only [Follows, Tally.cons]
    rw [hleft, Grammar.visits_of_ok ha hp, Grammar.visits_of_ok ha hp]
    exact ⟨congrArg (List.cons s) hrewritten, congrArg (List.cons s) hentered⟩

theorem append {γ : Type} {t : Tally α γ} {u : Tally α β} {next' : γ → Scene α → State α} {v : γ}
    {c : Scene α} {m : Nat} (ht : t.Within limit n k) (he : t.ending = .reached v c m)
    (h : t.Follows g limit n a next') (hu : u.Follows g limit m (next' v c) next) :
    (t.append u).Follows g limit n a next := by
  obtain ⟨es, rs, r⟩ := t
  cases he
  have hentered : es = rs := ht.entered_eq rfl
  -- the second stretch has what the first leaves of the limit
  have hleft : limit - n = rs.length + (limit - m) := by
    have hcounted : m = n + rs.length := ht.counted
    have hbounded : m ≤ max n limit := ht.bounded
    omega
  obtain ⟨es', rs', r'⟩ := u
  cases r' with
  | reached w d i =>
    intro k
    simp only [Tally.append, List.length_append]
    rw [Nat.add_assoc, h, hu, List.append_assoc]
  | broken e i =>
    obtain ⟨hrewritten, hvisited⟩ := hu
    simp only [Follows, Tally.append]
    rw [hleft, Nat.add_assoc, h, h, hrewritten, hvisited, hentered]
    exact ⟨rfl, rfl⟩

theorem yielding {t : Tally α (List σ)} {next : List σ → Scene α → State α} (ys : List σ)
    (h : t.Follows g limit n a fun zs => next (ys ++ zs)) : (t.yielding ys).Follows g limit n a next := by
  obtain ⟨es, rs, r⟩ := t
  cases r <;> exact h

/-- The tally of a whole derivation lists all that the limit lets the steps come to. -/
theorem eq_visits {t : Tally α β} (ht : t.Within limit 0 k)
    (hend : ∀ v c, (next v c).agenda.next? = none) (h : t.Follows g limit 0 a next) :
    t.entered = g.visits (limit + 1) a ∧ t.rewritten = g.visits limit a := by
  obtain ⟨es, rs, r⟩ := t
  cases r with
  | broken e m => exact ⟨h.2.symm, h.1.symm⟩
  | reached v c m =>
    have hentered : es = rs := ht.entered_eq rfl
    have hall : ∀ j, g.visits (rs.length + j) a = rs := fun j => by
      rw [h, Grammar.visits_of_none (hend v c), List.append_nil]
    obtain ⟨j, hj⟩ : ∃ j, limit = rs.length + j := by
      have hcounted : m = 0 + rs.length := ht.counted
      have hbounded : m ≤ max 0 limit := ht.bounded
      exact Nat.exists_eq_add_of_le (by omega)
    simp only [hj, Nat.add_assoc, hall, hentered, and_self]

end Follows
end Tally
end ShapeGrammar
