import ApiContract.Schema.Compiled
import Mathlib.Data.List.Forall2
/-!
# Verdicts below a place

The place at which a schema is met begins every place that its verdict names, and changes nothing
else of it. Two verdicts are alike if they are one verdict told below two places: then both accept
or neither does, they cover the same, and their violations differ only in how their places begin.
-/

namespace ApiContract

namespace Schema

namespace Coverage

@[ext] theorem ext {a b : Coverage} (h : a.properties = b.properties) (h' : a.items = b.items) :
    a = b := by
  cases a
  cases b
  simp_all

end Coverage

namespace Place

/-- A place inside of another. -/
def append (p q : Place) : Place := ⟨p.value ++ q.value, p.schema ++ q.schema⟩

@[simp] theorem append_root (p : Place) : p.append root = p := by simp [append, root]

@[simp] theorem root_append (p : Place) : root.append p = p := by simp [append, root]

theorem append_assoc (p q r : Place) : (p.append q).append r = p.append (q.append r) := by
  simp [append]

theorem append_under (p : Place) (word : String) : p.append (root.under word) = p.under word := by
  simp [append, root, under]

theorem append_into (p : Place) (segment : String) :
    p.append (root.into segment) = p.into segment := by
  simp [append, root, into]

end Place

/-- A violation, told from further outside. -/
def Violation.below (p : Place) (x : Violation) : Violation := { x with place := p.append x.place }

namespace Verdict

theorem accepted_append (x y : Verdict) : (x ++ y).accepted = (x.accepted && y.accepted) := by
  show (x.violations ++ y.violations).isEmpty = (x.violations.isEmpty && y.violations.isEmpty)
  cases x.violations <;> rfl

/-! ## Reports -/

/-- What is reported of each violation. -/
def report {α : Type} (f : Violation → α) (x : Verdict) : List α := x.violations.map f

section

variable {α : Type} (f : Violation → α)

theorem report_append (x y : Verdict) : (x ++ y).report f = x.report f ++ y.report f :=
  List.map_append

theorem report_inPlace (x : Verdict) : x.inPlace.report f = x.report f := by
  unfold inPlace
  split <;> rfl

theorem report_ofPart_append_cover (x : Verdict) (names : List String) :
    (x.ofPart ++ coverNames names).report f = x.report f := by
  rw [report_append]
  exact List.append_nil _

theorem report_join_map {β : Type} (l : List β) (g : β → Verdict) :
    (join (l.map g)).report f = l.flatMap fun e => (g e).report f := by
  induction l with
  | nil => rfl
  | cons e l ih =>
    rw [List.flatMap_cons, ← ih]
    exact report_append f _ _

end

/-! ## Telling a verdict from further outside -/

/-- A verdict whose places all begin with a place. -/
def below (p : Place) (x : Verdict) : Verdict :=
  { x with violations := x.violations.map (.below p) }

section

variable (p q : Place) (x y : Verdict)

@[simp] theorem accepted_below : (x.below p).accepted = x.accepted := List.isEmpty_map

@[simp] theorem coverage_below : (x.below p).coverage = x.coverage := rfl

theorem below_append : (x ++ y).below p = x.below p ++ y.below p := by
  show Verdict.mk ((x.violations ++ y.violations).map _) _ = Verdict.mk _ _
  rw [List.map_append]
  rfl

theorem below_inPlace : x.inPlace.below p = (x.below p).inPlace := by
  unfold inPlace
  rw [accepted_below]
  split <;> rfl

theorem below_ofPart : x.ofPart.below p = (x.below p).ofPart := rfl

theorem below_below : (x.below q).below p = x.below (p.append q) := by
  simp only [below, List.map_map]
  refine congrArg (Verdict.mk · x.coverage) (List.map_congr_left fun v _ => ?_)
  simp [Violation.below, Place.append_assoc]

@[simp] theorem below_root : x.below .root = x :=
  congrArg (Verdict.mk · x.coverage) (List.map_id _)

end

/-! ## Verdicts that are alike -/

/-- Whether two verdicts are one verdict, told below a place and below another. -/
def Alike (p p' : Place) (x y : Verdict) : Prop := ∃ z : Verdict, z.below p = x ∧ z.below p' = y

section

variable {p p' q : Place} {x y x' y' : Verdict} {xs ys : List Verdict}

namespace Alike

theorem accepted_eq (h : Alike p p' x y) : x.accepted = y.accepted := by
  obtain ⟨z, rfl, rfl⟩ := h
  rw [accepted_below, accepted_below]

theorem coverage_eq (h : Alike p p' x y) : x.coverage = y.coverage := by
  obtain ⟨z, rfl, rfl⟩ := h
  rfl

/-- Below one place there is only one verdict. -/
theorem eq (h : Alike p p x y) : x = y := by
  obtain ⟨z, rfl, rfl⟩ := h
  rfl

/-- A verdict without places is told alike everywhere. -/
theorem of_violations (h : x.violations = []) : Alike p p' x x := by
  have hx : ∀ q, x.below q = x := fun q => by rw [below, h, List.map_nil, ← h]
  exact ⟨x, hx p, hx p'⟩

theorem append (h : Alike p p' x y) (h' : Alike p p' x' y') : Alike p p' (x ++ x') (y ++ y') := by
  obtain ⟨z, rfl, rfl⟩ := h
  obtain ⟨z', rfl, rfl⟩ := h'
  exact ⟨z ++ z', below_append _ _ _, below_append _ _ _⟩

theorem inPlace (h : Alike p p' x y) : Alike p p' x.inPlace y.inPlace := by
  obtain ⟨z, rfl, rfl⟩ := h
  exact ⟨z.inPlace, below_inPlace _ _, below_inPlace _ _⟩

theorem ofPart (h : Alike p p' x y) : Alike p p' x.ofPart y.ofPart := by
  obtain ⟨z, rfl, rfl⟩ := h
  exact ⟨z.ofPart, below_ofPart _ _, below_ofPart _ _⟩

/-- Verdicts told below the same place inside of two others are told below those. -/
theorem of_append (h : Alike (p.append q) (p'.append q) x y) : Alike p p' x y := by
  obtain ⟨z, rfl, rfl⟩ := h
  exact ⟨z.below q, below_below _ _ _, below_below _ _ _⟩

theorem of_under {word : String} (h : Alike (p.under word) (p'.under word) x y) :
    Alike p p' x y :=
  of_append (q := Place.root.under word) (by rwa [Place.append_under, Place.append_under])

theorem of_into {segment : String} (h : Alike (p.into segment) (p'.into segment) x y) :
    Alike p p' x y :=
  of_append (q := Place.root.into segment) (by rwa [Place.append_into, Place.append_into])

end Alike

theorem alike_check (ok : Bool) (v : Json) (cause : Cause) :
    Alike p p' (check ok p v cause) (check ok p' v cause) := by
  refine ⟨check ok .root v cause, ?_, ?_⟩ <;> cases ok <;> simp [check, below, Violation.below]

/-- A check is alike under the same word. -/
theorem alike_check_under (ok : Bool) (word : String) (v : Json) (cause : Cause) :
    Alike p p' (check ok (p.under word) v cause) (check ok (p'.under word) v cause) :=
  (alike_check ok v cause).of_under

theorem alike_join (h : List.Forall₂ (Alike p p') xs ys) : Alike p p' (join xs) (join ys) := by
  induction h with
  | nil => exact .of_violations rfl
  | cons h _ ih => exact h.append ih

theorem alike_join_map {α : Type} {l : List α} {f g : α → Verdict}
    (h : ∀ e ∈ l, Alike p p' (f e) (g e)) : Alike p p' (join (l.map f)) (join (l.map g)) := by
  refine alike_join ?_
  rw [List.forall₂_map_left_iff, List.forall₂_map_right_iff, List.forall₂_same]
  exact h

theorem forall₂_filter_accepted (h : List.Forall₂ (Alike p p') xs ys) :
    List.Forall₂ (Alike p p') (xs.filter accepted) (ys.filter accepted) := by
  induction h with
  | nil => exact .nil
  | @cons x y _ _ h _ ih =>
    cases ha : x.accepted with
    | true =>
      rw [List.filter_cons_of_pos ha, List.filter_cons_of_pos (h.accepted_eq ▸ ha)]
      exact .cons h ih
    | false =>
      have hy : ¬y.accepted = true := by simp [← h.accepted_eq, ha]
      rw [List.filter_cons_of_neg (by simp [ha]), List.filter_cons_of_neg hy]
      exact ih

theorem forall₂_map_inPlace (h : List.Forall₂ (Alike p p') xs ys) :
    List.Forall₂ (Alike p p') (xs.map Verdict.inPlace) (ys.map Verdict.inPlace) := by
  rw [List.forall₂_map_left_iff, List.forall₂_map_right_iff]
  exact h.imp fun _ _ hx => hx.inPlace

theorem isEmpty_eq_of_forall₂ (h : List.Forall₂ (Alike p p') xs ys) : xs.isEmpty = ys.isEmpty := by
  cases h <;> rfl

/-- Verdicts that are alike are both missing or both there. -/
theorem alike_option_cases {a b : Option Verdict} (h : Option.Rel (Alike p p') a b) :
    (a = none ∧ b = none) ∨ ∃ x y, a = some x ∧ b = some y ∧ Alike p p' x y := by
  cases h with
  | none => exact Or.inl ⟨rfl, rfl⟩
  | some h => exact Or.inr ⟨_, _, rfl, rfl, h⟩

/-- The only verdict of a list, or a violation. -/
theorem alike_only {v : Json} {none several : Cause} : List.Forall₂ (Alike p p') xs ys →
    Alike p p'
      (match xs with
        | [] => check false p v none
        | [x] => x
        | _ => check false p v several : Verdict)
      (match ys with
        | [] => check false p' v none
        | [y] => y
        | _ => check false p' v several : Verdict) := by
  intro h
  match xs, ys, h with
  | _, _, .nil => exact alike_check ..
  | _, _, .cons h .nil => exact h
  | _, _, .cons _ (.cons _ _) => exact alike_check ..

/-- Violations that are told otherwise, but alike. -/
theorem alike_renamed {f g : Violation → Violation} {k : Violation → Violation}
    (hf : ∀ a, f (a.below p) = (k a).below p) (hg : ∀ a, g (a.below p') = (k a).below p')
    (h : Alike p p' x y) :
    Alike p p' { violations := x.violations.map f } { violations := y.violations.map g } := by
  obtain ⟨z, rfl, rfl⟩ := h
  refine ⟨{ violations := z.violations.map k }, ?_, ?_⟩ <;>
    simp only [below, List.map_map, Function.comp_def, hf, hg]

/-- Members that are told as covered, and those that nothing covers. -/
theorem alike_told {members : Assoc Json} {f g : String × Json → String × Option Verdict}
    (h : ∀ e ∈ members, (f e).1 = (g e).1 ∧ Option.Rel (Alike p p') (f e).2 (g e).2)
    {word : String} {v : Json} {cause : List String → Cause} :
    let uncovered (t : String × Option Verdict) := if t.2.isNone then some t.1 else none
    Alike p p'
      (join ((members.map f).map fun t => (t.2.getD {}).ofPart ++ coverNames [t.1]) ++
        check ((members.map f).filterMap uncovered).isEmpty (p.under word) v
          (cause ((members.map f).filterMap uncovered)))
      (join ((members.map g).map fun t => (t.2.getD {}).ofPart ++ coverNames [t.1]) ++
        check ((members.map g).filterMap uncovered).isEmpty (p'.under word) v
          (cause ((members.map g).filterMap uncovered))) := by
  intro uncovered
  have huncovered : (members.map f).filterMap uncovered = (members.map g).filterMap uncovered := by
    rw [List.filterMap_map, List.filterMap_map]
    refine List.filterMap_congr fun e he => ?_
    obtain ⟨hname, hv⟩ := h e he
    simp only [uncovered, Function.comp, hname]
    rcases alike_option_cases hv with ⟨hx, hy⟩ | ⟨x, y, hx, hy, -⟩ <;> rw [hx, hy]
    simp
  rw [huncovered, List.map_map, List.map_map]
  refine (alike_join_map fun e he => ?_).append (alike_check_under ..)
  obtain ⟨hname, hv⟩ := h e he
  simp only [Function.comp, hname]
  refine Alike.append (Alike.ofPart ?_) (.of_violations rfl)
  rcases alike_option_cases hv with ⟨hx, hy⟩ | ⟨x, y, hx, hy, hxy⟩ <;> rw [hx, hy]
  · exact .of_violations rfl
  · exact hxy

theorem alike_judgeCount (v : Json) (found : Nat) (least most : Option Nat) :
    Alike p p' (judgeCount p v found least most) (judgeCount p' v found least most) := by
  cases least with
  | none => cases most <;> exact alike_check_under ..
  | some least =>
    cases most with
    | none => exact alike_check_under ..
    | some most =>
      simp only [judgeCount]
      split <;> exact alike_check_under ..

end

end Verdict

end Schema

end ApiContract
