import Mathlib.Data.List.Perm.Basic
import ShapeGrammar.Proofs.Exact
import ShapeGrammar.Proofs.Failure

/-! Component splits by first match. Every face of a box goes to the first selection that takes it.
The selections are dealt their faces in the order in which they are written, each of them in the
order of the faces; what none of them takes is dropped. The test of a face may come out either way:
nothing is asked of the frame of the box or of its extents. -/
namespace ShapeGrammar
variable {α σ : Type} [Scalar α]

def Selection.takes (box : Shape α) (k : Selection σ) (f : Face) : Bool :=
  k.selector.selects box (f.quad box.scope) matches .ok true

/-- The faces dealt to the selections: to each of them those that it takes and none before it does. -/
def dealt (box : Shape α) (faces : List Face) (ks : List (Selection σ)) : List (σ × Face) :=
  ks.zipIdx.flatMap fun (k, i) =>
    (faces.filter fun f => (ks.take i).all (fun earlier => !earlier.takes box f) && k.takes box f).map
      fun f => (k.successor, f)

def Face.branch (box : Shape α) (p : σ × Face) : Branch α σ := ⟨p.1, p.2.quad box.scope⟩

section Dealt
variable {box : Shape α} {faces : List Face} {ks : List (Selection σ)}

/-- The first selection is dealt all that it takes, the others share what it leaves. -/
theorem dealt_cons (k : Selection σ) :
    dealt box faces (k :: ks) = (faces.filter (k.takes box)).map (fun f => (k.successor, f)) ++
      dealt box (faces.filter fun f => !k.takes box f) ks := by
  rw [dealt, List.zipIdx_cons, List.zipIdx_succ, List.flatMap_cons, List.flatMap_map, dealt]
  congr 1
  refine List.flatMap_congr fun ⟨j, i⟩ _ => ?_
  simp only [List.take_succ_cons, List.all_cons, List.filter_filter]
  congr 2
  funext f
  rw [Bool.and_assoc, Bool.and_comm]

theorem map_snd_dealt_cons (k : Selection σ) :
    (dealt box faces (k :: ks)).map (·.2) = faces.filter (k.takes box) ++
      (dealt box (faces.filter fun f => !k.takes box f) ks).map (·.2) := by
  rw [dealt_cons, List.map_append, List.map_map]
  congr 1
  exact List.map_id _

theorem mem_dealt {f : Face} :
    f ∈ (dealt box faces ks).map (·.2) ↔ f ∈ faces ∧ ∃ k ∈ ks, k.takes box f = true := by
  induction ks generalizing faces with
  | nil => simp [dealt]
  | cons k ks ih =>
    rw [map_snd_dealt_cons, List.mem_append, ih, List.mem_filter, List.mem_filter]
    cases hk : k.takes box f <;> simp [hk]

theorem nodup_dealt (hf : faces.Nodup) : ((dealt box faces ks).map (·.2)).Nodup := by
  induction ks generalizing faces with
  | nil => simp [dealt]
  | cons k ks ih =>
    rw [map_snd_dealt_cons]
    refine (hf.filter _).append (ih (hf.filter _)) fun f hf hf' => ?_
    -- a face that the first selection takes is not left for the others
    have htaken : k.takes box f = true := (List.mem_filter.mp hf).2
    have hleft : (!k.takes box f) = true := (List.mem_filter.mp (mem_dealt.mp hf').1).2
    rw [htaken] at hleft
    cases hleft

end Dealt

namespace Face

theorem nodup_values : values.Nodup := by decide

theorem mem_values (f : Face) : f ∈ values := by cases f <;> decide

end Face

theorem Selection.takes_all {box : Shape α} (hbox : box.kind = .box) {k : Selection σ}
    (hk : k.selector = .all) (f : Face) : k.takes box f = true := by
  rw [takes, FaceSelector.selects, hbox, hk]
  rfl

theorem length_dealt_all {box : Shape α} (hbox : box.kind = .box) {ks : List (Selection σ)}
    (hall : ∃ k ∈ ks, k.selector = .all) : (dealt box Face.values ks).length = 6 := by
  have hperm : ((dealt box Face.values ks).map (·.2)).Perm Face.values := by
    refine (List.perm_ext_iff_of_nodup (nodup_dealt Face.nodup_values) Face.nodup_values).mpr fun f => ?_
    obtain ⟨k, hmem, hk⟩ := hall
    exact mem_dealt.trans (and_iff_left ⟨k, hmem, Selection.takes_all hbox hk f⟩)
  rw [← List.length_map (·.2), hperm.length_eq]
  rfl

theorem sift_faces {box : Shape α} (hbox : box.kind = .box) (k : Selection σ) (faces : List Face) :
    sift (fun c => k.selector.selects box c) (faces.map (Face.quad box.scope)) =
      .ok ((faces.filter (k.takes box)).map (Face.quad box.scope),
        (faces.filter fun f => !k.takes box f).map (Face.quad box.scope)) := by
  induction faces with
  | nil => rfl
  | cons f fs ih =>
    have htest : k.selector.selects box (f.quad box.scope) = .ok (k.takes box f) := by
      rw [Selection.takes, FaceSelector.selects, hbox, Face.quad]
      simp only
      split <;> simp_all
    rw [List.map_cons, sift, htest, ih]
    cases hk : k.takes box f <;> simp [hk, bind, Except.bind, pure, Except.pure]

theorem assign_faces {box : Shape α} (hbox : box.kind = .box) (ks : List (Selection σ))
    (faces : List Face) :
    assign box ks (faces.map (Face.quad box.scope)) =
      .ok ((dealt box faces ks).map (Face.branch box)) := by
  induction ks generalizing faces with
  | nil => rfl
  | cons k ks ih =>
    rw [assign, sift_faces hbox, dealt_cons, List.map_append, List.map_map]
    simp only [bind, Except.bind, pure, Except.pure, ih, List.map_map]
    rfl

theorem Shape.components_box {h : Shape α} (hbox : h.kind = .box) (c : Component) :
    h.components c = if c = .faces then .ok (Face.values.map (Face.quad h.scope))
      else .error (.unsupportedComponent .box c) := by
  cases c <;> simp [components, hbox]

namespace Operation
variable {h : Shape α} (env : Env α) (ks : List (Selection σ))

theorem apply_componentSplit_quad (hquad : h.kind = .quad) (c : Component) :
    (componentSplit c ks).apply env h = .error (.noStrategy "component split" .quad) := by
  have hc : h.components c = .error (.noStrategy "component split" .quad) := by
    simp [Shape.components, hquad]
  rw [apply, hc]
  rfl

theorem apply_componentSplit_ne (hbox : h.kind = .box) {c : Component} (hc : c ≠ .faces) :
    (componentSplit c ks).apply env h = .error (.unsupportedComponent .box c) := by
  rw [apply, Shape.components_box hbox, if_neg hc]
  rfl

/-- A component split makes of a box the faces that are dealt to its selections. -/
theorem apply_componentSplit_faces (hbox : h.kind = .box) :
    (componentSplit .faces ks).apply env h =
      .ok (.divided ((dealt h Face.values ks).map (Face.branch h))) := by
  rw [apply, Shape.components_box hbox, if_pos rfl]
  simp only [bind, Except.bind, pure, Except.pure, assign_faces hbox]

/-- A component split fails just on a quad and for components other than faces, whatever it selects.
Otherwise its branches are the faces that are dealt to its selections: no face more than once, a face
at all just if some selection takes it, and so all six if one of them takes all. -/
theorem faces_go_to_first_match (env : Env α) (h : Shape α) (c : Component) (ks : List (Selection σ)) :
    let outcome := (componentSplit c ks).apply env h
    (h.kind = .quad → outcome = .error (.noStrategy "component split" .quad)) ∧
    (h.kind = .box → c ≠ .faces → outcome = .error (.unsupportedComponent .box c)) ∧
    (h.kind = .box → c = .faces →
      outcome = .ok (.divided ((dealt h Face.values ks).map (Face.branch h))) ∧
      ((dealt h Face.values ks).map (·.2)).Nodup ∧
      (∀ f, f ∈ (dealt h Face.values ks).map (·.2) ↔ ∃ k ∈ ks, k.takes h f = true) ∧
      ((∃ k ∈ ks, k.selector = .all) → (dealt h Face.values ks).length = 6)) := by
  refine ⟨fun hquad => apply_componentSplit_quad env ks hquad c,
    fun hbox hc => apply_componentSplit_ne env ks hbox hc, fun hbox hc => ?_⟩
  subst hc
  refine ⟨apply_componentSplit_faces env ks hbox, nodup_dealt Face.nodup_values, fun f => ?_,
    length_dealt_all hbox⟩
  exact mem_dealt.trans (and_iff_right f.mem_values)

theorem faces_go_to_first_match_cabin :
    let ks : List (Selection String) := [⟨.front, "door"⟩, ⟨.all, "wall"⟩, ⟨.front, "window"⟩]
    let env : Env ℚ := ⟨fun _ => none, none⟩
    let branches : List (Branch ℚ String) :=
      [("door", Face.posZ), ("wall", .negY), ("wall", .posY), ("wall", .negZ), ("wall", .posX),
        ("wall", .negX)].map (Face.branch .unitBox)
    (Shape.unitQuad : Shape ℚ).kind = .quad ∧ (Shape.unitBox : Shape ℚ).kind = .box ∧
    Component.edges ≠ .faces ∧ (∃ k ∈ ks, k.selector = .all) ∧
    (componentSplit .edges ks).apply env .unitQuad = .error (.noStrategy "component split" .quad) ∧
    (componentSplit .edges ks).apply env .unitBox = .error (.unsupportedComponent .box .edges) ∧
    (componentSplit .faces ks).apply env .unitBox = .ok (.divided branches) ∧
    branches.length = 6 := by
  intro ks env branches
  have hall : ∃ k ∈ ks, k.selector = .all := ⟨⟨.all, "wall"⟩, by simp [ks], rfl⟩
  have hdealt : (dealt (.unitBox : Shape ℚ) Face.values ks).map (Face.branch .unitBox) = branches := by
    refine congrArg (List.map _) ?_
    decide +kernel
  obtain ⟨hquad, -, -⟩ := faces_go_to_first_match env .unitQuad .edges ks
  obtain ⟨-, hedges, -⟩ := faces_go_to_first_match env .unitBox .edges ks
  obtain ⟨hfaces, -, -, hlength⟩ := (faces_go_to_first_match env .unitBox .faces ks).2.2 rfl rfl
  refine ⟨rfl, rfl, by decide, hall, hquad rfl, hedges rfl (by decide), by rw [hfaces, hdealt], ?_⟩
  rw [← hdealt, List.length_map, hlength hall]

end Operation
end ShapeGrammar
