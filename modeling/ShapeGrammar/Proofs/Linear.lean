import ShapeGrammar.Binary32
import ShapeGrammar.Proofs.Branches
import ShapeGrammar.Proofs.Ending
import ShapeGrammar.Proofs.Lookup

/-! Linear grammars. Where bodies only reshape before their last successor and branches never
reshape, there are always as many shapes on the stack as successors to come, and each successor
meets the shape that was made for it. -/
namespace ShapeGrammar
variable {α : Type}

/-- Symbols, and splits that hand their branches on to such successors again. -/
inductive Successor.Dividing : Successor α → Prop
  | symbol (name) : Dividing (.symbol name)
  | operation {op} : op.reshapes = false → (∀ s ∈ op.parts, Dividing s) → Dividing (.operation op)

/-- Bodies that do nothing but reshape before their last successor. -/
inductive LinearBody : List (Successor α) → Prop
  | last {s} : s.Dividing → LinearBody [s]
  | reshape {op ss} : op.reshapes = true → LinearBody ss → LinearBody (.operation op :: ss)

def Grammar.Linear (g : Grammar α) : Prop :=
  ∀ name r, g.rule? name = some r → LinearBody r.successors

theorem Grammar.linear_of_rules {g : Grammar α} (h : ∀ r ∈ g.rules, LinearBody r.successors) :
    g.Linear :=
  fun _ r hr => h r (mem_rules_of_rule? hr)

/-- The shapes above `rest` are those of the successors in front of `later`. Between two bodies
there is one for each; within a body one more, which its last successor is to take. -/
inductive Paired (later : List (Successor α)) (rest : List (Shape α)) : State α → Prop
  | between {ys w xs hs c} : ys ++ w = xs ++ later → (∀ s ∈ xs, s.Dividing) →
      hs.length = xs.length → c.stack = hs ++ rest → Paired later rest ⟨⟨[], ys, w⟩, c⟩
  | within {body xs h hs c} : LinearBody body → (∀ s ∈ xs, s.Dividing) → hs.length = xs.length →
      c.stack = h :: (hs ++ rest) → Paired later rest ⟨⟨body, [], xs ++ later⟩, c⟩

variable {later : List (Successor α)} {rest : List (Shape α)} {a b : State α}

theorem Paired.between_of_body (h : Paired later rest a) (hbody : a.agenda.body = []) :
    ∃ xs hs, a.agenda.toList = xs ++ later ∧ a.scene.stack = hs ++ rest ∧ hs.length = xs.length ∧
      ∀ s ∈ xs, s.Dividing := by
  cases h with
  | between hw hxs hlen hc => exact ⟨_, _, hw, hc, hlen, hxs⟩
  | within hb hxs hlen hc =>
    obtain rfl : _ = [] := hbody
    cases hb

theorem LinearBody.length_pos {body : List (Successor α)} (h : LinearBody body) : 0 < body.length := by
  cases h <;> simp

theorem Paired.of_length_eq (h : Paired later rest a)
    (hlen : a.agenda.toList.length = later.length) :
    a.agenda.body = [] ∧ a.agenda.toList = later ∧ a.scene.stack = rest := by
  cases h with
  | @between ys w xs hs c hw hxs hhs hc =>
    have htoList : Agenda.toList ⟨[], ys, w⟩ = xs ++ later := hw
    rw [htoList, List.length_append] at hlen
    obtain rfl : xs = [] := List.eq_nil_of_length_eq_zero (by omega)
    obtain rfl : hs = [] := List.eq_nil_of_length_eq_zero hhs
    exact ⟨rfl, htoList, hc⟩
  | within hb hxs hhs hc =>
    have hpos := hb.length_pos
    simp only [Agenda.toList, List.length_append] at hlen
    omega

theorem Paired.stack_ne_nil (h : Paired later rest a)
    (hlt : later.length < a.agenda.toList.length) : a.scene.stack ≠ [] := by
  cases h with
  | @between ys w xs hs c hw hxs hhs hc =>
    have htoList : Agenda.toList ⟨[], ys, w⟩ = xs ++ later := hw
    rw [htoList, List.length_append] at hlt
    intro hnil
    rw [hc, List.append_eq_nil_iff] at hnil
    rw [hnil.1, List.length_nil] at hhs
    omega
  | within hb hxs hhs hc =>
    rw [hc]
    exact List.cons_ne_nil _ _

theorem Paired.drop (h : Paired [] [] a) (hbody : a.agenda.body = []) (i : Nat) :
    Paired (a.agenda.toList.drop i) (a.scene.stack.drop i) a := by
  obtain ⟨xs, hs, hw, hc, hlen, hxs⟩ := h.between_of_body hbody
  rw [List.append_nil] at hw hc
  rw [hw, hc]
  rcases a with ⟨⟨body, ys, w⟩, c⟩
  obtain rfl : body = [] := hbody
  have hys : ys ++ w = xs.take i ++ xs.drop i := by
    rw [List.take_append_drop]
    exact hw
  have hstack : c.stack = hs.take i ++ hs.drop i := by
    rw [List.take_append_drop]
    exact hc
  have hlen' : (hs.take i).length = (xs.take i).length := by
    rw [List.length_take, List.length_take, hlen]
  exact .between hys (fun s hs => hxs s (List.mem_of_mem_take hs)) hlen' hstack

theorem Paired.length_eq (h : Paired [] [] a) (hbody : a.agenda.body = []) :
    a.scene.stack.length = a.agenda.toList.length := by
  obtain ⟨xs, hs, hw, hc, hlen, -⟩ := h.between_of_body hbody
  rw [hw, hc, List.append_nil, List.append_nil, hlen]

theorem Paired.start (ax : Axiom α) (recording : Bool) : Paired [] [] (.start ax recording) := by
  have hsymbol : ∀ s ∈ [(.symbol ax.symbol : Successor α)], s.Dividing := by
    simp [Successor.Dividing.symbol]
  have hstack : (State.start ax recording).scene.stack = [ax.shape] ++ [] := rfl
  exact .between rfl hsymbol rfl hstack

variable [Scalar α]

namespace Grammar
variable {g : Grammar α} {s : Successor α} {c : Scene α} {h : Shape α} {o : Outcome α}

theorem treat_dividing (hs : s.Dividing) (ho : g.treat s h = .ok o) :
    o.opened.length = o.yielded.length ∧ ∀ y ∈ o.yielded, y.Dividing := by
  cases hs with
  | symbol name => cases ho; simp
  | @operation op hr hparts =>
    obtain ⟨e, he, rfl⟩ := treat_operation.mp ho
    obtain ⟨bs, rfl, hbs⟩ := op.apply_divided hr he
    refine ⟨by simp [Effect.shapes, Effect.successors], fun y hy => ?_⟩
    obtain ⟨b, hb, rfl⟩ := List.mem_map.mp hy
    exact hparts _ (hbs b hb)

theorem treat_reshaping {op : Operation α (Successor α)} (hr : op.reshapes = true)
    (ho : g.treat (.operation op) h = .ok o) : ∃ k, o = ⟨[], [k], []⟩ := by
  obtain ⟨e, he, rfl⟩ := treat_operation.mp ho
  obtain ⟨k, rfl⟩ := op.apply_replaced hr he
  exact ⟨k, rfl⟩

variable [Numeral α] {xs : List (Successor α)} {hs : List (Shape α)}

theorem paired_of_perform (hg : g.Linear) (hd : s.Dividing) (hxs : ∀ x ∈ xs, x.Dividing)
    (hlen : hs.length = xs.length) (hc : c.stack = h :: (hs ++ rest))
    (hp : g.perform s ⟨[], [], xs ++ later⟩ c = .ok b) : Paired later rest b := by
  rcases perform_cases hp with ⟨body, hb, rfl⟩ | ⟨hb, ys, d, ha, rfl⟩
  · cases hd with
    | symbol name =>
      obtain ⟨r, hr, rfl⟩ := Option.map_eq_some_iff.mp hb
      rw [Agenda.unfold, List.append_nil]
      exact .within (hg name r hr) hxs hlen hc
    | operation => cases hb
  · obtain ⟨k, below, o, hk, ho, rfl, ht⟩ := exists_treat_of_act ha
    obtain ⟨rfl, rfl⟩ : h = k ∧ hs ++ rest = below := by simpa [hc] using hk
    obtain ⟨hopened, hyielded⟩ := treat_dividing hd ho
    have hw : o.yielded ++ (xs ++ later) = o.yielded ++ xs ++ later := by rw [List.append_assoc]
    have hstack : d.stack = o.opened ++ hs ++ rest := by rw [ht.stack, List.append_assoc]
    have hlen' : (o.opened ++ hs).length = (o.yielded ++ xs).length := by
      rw [List.length_append, List.length_append, hopened, hlen]
    refine .between hw (fun x hx => ?_) hlen' hstack
    rcases List.mem_append.mp hx with hx | hx
    · exact hyielded x hx
    · exact hxs x hx

theorem paired_of_step (hg : g.Linear) (hp : Paired later rest a)
    (hlt : later.length < a.agenda.toList.length) (hstep : g.step a = some (.ok b)) :
    Paired later rest b := by
  cases hp with
  | @between ys w xs hs c hw hxs hlen hc =>
    -- the next successor takes the first of its shapes, the others wait
    have htoList : Agenda.toList ⟨[], ys, w⟩ = xs ++ later := hw
    rw [htoList] at hlt
    cases xs with
    | nil => exact absurd hlt (by simp)
    | cons x xs =>
      cases hs with
      | nil => cases hlen
      | cons k hs =>
        rw [step_congr, hw] at hstep
        exact paired_of_perform hg (hxs x (by simp)) (fun y hy => hxs y (by simp [hy]))
          (Nat.succ.inj hlen) hc (Option.some.inj hstep)
  | @within body xs k ks c hb hxs hlen hc =>
    cases hb with
    | last hd => exact paired_of_perform hg hd hxs hlen hc (Option.some.inj hstep)
    | @reshape op ss hr hss =>
      -- nothing is yielded, and the rest of the body goes on with the new shape
      rcases perform_cases (Option.some.inj hstep) with ⟨body, hbody, -⟩ | ⟨-, ys, d, ha, rfl⟩
      · cases hbody
      · obtain ⟨k', below, o, hk, ho, rfl, ht⟩ := exists_treat_of_act ha
        obtain ⟨rfl, rfl⟩ : k = k' ∧ ks ++ rest = below := by simpa [hc] using hk
        obtain ⟨l, rfl⟩ := treat_reshaping hr ho
        exact .within hss hxs hlen ht.stack

theorem Exec.paired (hg : g.Linear) {m : Nat} (hx : g.Exec a m b) (hp : Paired later rest a)
    (hlt : ∀ j < m, ∀ x, g.Exec a j x → later.length < x.agenda.toList.length) :
    Paired later rest b := by
  induction hx with
  | refl => exact hp
  | succ hs ht ih =>
    refine ih (paired_of_step hg hp (hlt 0 (by omega) _ (.refl _)) hs) fun j hj x hx => ?_
    exact hlt (j + 1) (by omega) x (.succ hs hx)

theorem Exec.paired_all (hg : g.Linear) {m : Nat} (hx : g.Exec a m b) (hp : Paired [] [] a) :
    Paired [] [] b :=
  hx.invariant (fun _ _ hpx hs => paired_of_step hg hpx (length_pos_of_step hs) hs) hp

/-- The first state of the run from `a` that has `p` successors left. -/
def Reaches (g : Grammar α) (a : State α) (p : Nat) (b : State α) : Prop :=
  b.agenda.toList.length = p ∧
    ∃ m, g.Exec a m b ∧ ∀ j < m, ∀ x, g.Exec a j x → p < x.agenda.toList.length

theorem length_le_of_step (hs : g.step a = some (.ok b)) :
    a.agenda.toList.length ≤ b.agenda.toList.length + 1 := by
  obtain ⟨s, agenda, hn, hp⟩ := step_cases hs
  rw [Agenda.toList_of_next? hn, List.length_cons]
  rcases perform_cases hp with ⟨body, -, rfl⟩ | ⟨-, ys, d, -, rfl⟩
  · simp
  · simp [Agenda.yield, Agenda.toList]

/-- So a run does not pass over any number of successors left. -/
theorem Exec.exists_reaches {m p : Nat} (hx : g.Exec a m b) (hp : p ≤ a.agenda.toList.length)
    (hb : b.agenda.toList.length ≤ p) : ∃ x, g.Reaches a p x := by
  induction hx with
  | refl a => exact ⟨a, by omega, 0, .refl a, by simp⟩
  | @succ a c b m hs ht ih =>
    by_cases heq : a.agenda.toList.length = p
    · exact ⟨a, heq, 0, .refl a, by simp⟩
    · have hc := length_le_of_step hs
      obtain ⟨x, hxp, n, hxn, hall⟩ := ih (by omega) hb
      refine ⟨x, hxp, n + 1, .succ hs hxn, fun j hj y hy => ?_⟩
      cases hy with
      | refl => omega
      | succ hs' hy' =>
        rw [hs] at hs'
        cases hs'
        exact hall _ (by omega) y hy'

/-- In a derivation by a linear grammar, whenever a body is through there are as many shapes as
successors left, and each of these successors is come to with its own shape on top, if it is come
to at all. So no step lacks a shape, and in the end no shape is left. -/
theorem linear_pairs (g : Grammar α) (hg : g.Linear) (ax : Axiom α) :
    (∀ recording k st, g.Exec (.start ax recording) k st → st.agenda.body = [] →
      st.scene.stack.length = st.agenda.toList.length ∧
      ∀ i b, g.Reaches st (st.agenda.toList.length - i) b → b.agenda.body = [] ∧
        b.agenda.toList = st.agenda.toList.drop i ∧ b.scene.stack = st.scene.stack.drop i) ∧
    (∀ config fuel e, g.derive? config ax fuel = some (.error e) → e.root ≠ .emptyStack) ∧
    ∀ recording fuel c n, g.advance fuel 0 (.start ax recording) = .finished c n → c.stack = [] := by
  refine ⟨fun recording k st hx hbody => ?_, fun config fuel e he => ?_, fun recording fuel c n hf => ?_⟩
  · have hp := hx.paired_all hg (Paired.start ax recording)
    refine ⟨hp.length_eq hbody, fun i b ⟨hb, m, hm, hfirst⟩ => ?_⟩
    have hdrop : (st.agenda.toList.drop i).length = st.agenda.toList.length - i := List.length_drop
    rw [← hdrop] at hb hfirst
    exact (hm.paired hg (hp.drop hbody i) hfirst).of_length_eq hb
  · rcases derive?_eq_error he with ⟨n, hadv⟩ | ⟨l, -, rfl⟩
    · obtain ⟨k, b, -, -, hx, hb⟩ := advance_eq_failed.mp hadv
      have hp := hx.paired_all hg (Paired.start ax config.recording)
      rw [ne_eq, root_of_step_error hb]
      exact hp.stack_ne_nil (length_pos_of_step hb)
    · simp [Error.root]
  · obtain ⟨k, -, -, hx⟩ := advance_eq_finished.mp hf
    exact ((hx.paired_all hg (Paired.start ax recording)).of_length_eq rfl).2.2

def walls : Successor Float32 := .operation (.componentSplit .faces [⟨.all, .symbol "wall"⟩])

def house : Rule Float32 where
  predecessor := "house"
  successors :=
    let unity := .constant 1 .plain
    [.operation (.scale ⟨unity, unity, unity⟩), .operation (.split .y none (.ofItems
      [.step (.absolute unity) (.symbol "cellar"), .nested [.step (.relative unity) walls] true]))]

/-- A cellar that comes to nothing. -/
def cellar : Rule Float32 := ⟨"cellar", [.operation (.split .x none (.ofItems []))]⟩

/-- A shaft that is taken apart again and again. -/
def shaft : Rule Float32 := ⟨"shaft", [.operation (.componentSplit .faces [⟨.all, .symbol "shaft"⟩])]⟩

def cottage : Grammar Float32 := ⟨[.rule house, .rule cellar, .rule shaft]⟩

theorem linear_cottage : cottage.Linear := by
  have hwalls : walls.Dividing :=
    .operation rfl (List.forall_mem_singleton.mpr (.symbol "wall"))
  have hhouse : LinearBody house.successors :=
    .reshape rfl (.last (.operation rfl
      (List.forall_mem_cons.mpr ⟨.symbol "cellar", List.forall_mem_singleton.mpr hwalls⟩)))
  have hcellar : LinearBody cellar.successors := .last (.operation rfl (List.forall_mem_nil _))
  have hshaft : LinearBody shaft.successors :=
    .last (.operation rfl (List.forall_mem_singleton.mpr (.symbol "shaft")))
  exact linear_of_rules (List.forall_mem_cons.mpr ⟨hhouse,
    List.forall_mem_cons.mpr ⟨hcellar, List.forall_mem_singleton.mpr hshaft⟩⟩)

theorem linear_pairs_cottage :
    (∃ st b, st.agenda.toList = [.symbol "cellar", walls] ∧ cottage.Reaches st 1 b ∧
      b.scene.stack = st.scene.stack.drop 1) ∧
    (∃ e, cottage.derive? ⟨none, false⟩ ⟨"shaft", .unitBox⟩ 20 = some (.error e) ∧ e.root ≠ .emptyStack) ∧
    ∃ c, cottage.advance 20 0 (.start ⟨"house", .unitBox⟩ true) = .finished c 12 ∧ c.stack = [] := by
  obtain ⟨hpairs, -, hend⟩ := linear_pairs cottage linear_cottage ⟨"house", .unitBox⟩
  obtain ⟨-, hroot, -⟩ := linear_pairs cottage linear_cottage ⟨"shaft", .unitBox⟩
  refine ⟨?_, ?_, ?_⟩
  · obtain ⟨st, hst, hbody, hlist, c, hc⟩ : ∃ st, cottage.Exec (.start ⟨"house", .unitBox⟩ true) 3 st ∧
        st.agenda.body = [] ∧ st.agenda.toList = [.symbol "cellar", walls] ∧
        ∃ c, cottage.advance 20 0 st = .finished c 9 :=
      ⟨_, .succ rfl (.succ rfl (.succ rfl (.refl _))), rfl, rfl, _, rfl⟩
    obtain ⟨k, -, -, hx⟩ := advance_eq_finished.mp hc
    obtain ⟨b, hb⟩ := hx.exists_reaches (p := 1) (by simp [hlist]) (Nat.zero_le 1)
    obtain ⟨-, hentries⟩ := hpairs true 3 st hst hbody
    exact ⟨st, b, hlist, hb, (hentries 1 b (by rwa [hlist])).2.2⟩
  · obtain ⟨e, he⟩ : ∃ e, cottage.derive? ⟨none, false⟩ ⟨"shaft", .unitBox⟩ 20 = some (.error e) :=
      ⟨_, rfl⟩
    exact ⟨e, he, hroot _ _ e he⟩
  · obtain ⟨c, hc⟩ : ∃ c, cottage.advance 20 0 (.start ⟨"house", .unitBox⟩ true) = .finished c 12 :=
      ⟨_, rfl⟩
    exact ⟨c, hc, hend true 20 c 12 hc⟩

end Grammar
end ShapeGrammar
