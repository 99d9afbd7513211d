import ApiContract.Proofs.Url.Query
/-!
# What the parameters of a target tell of its pairs

The values of a name are put together in their order, and nothing else is forgotten than how pairs
of different names stand among each other. So two targets have the same parameters exactly when the
pairs of the one are those of the other, reordered without passing a pair by another of its name.
-/

namespace ApiContract

namespace Query

/-! ## Reordering pairs of different names -/

/-- Whether pairs are made from others by swapping neighbours of different names. -/
inductive Reordered : List (String × String) → List (String × String) → Prop
  | nil : Reordered [] []
  | cons (pair : String × String) {ps qs : List (String × String)} (h : Reordered ps qs) :
    Reordered (pair :: ps) (pair :: qs)
  | swap {p q : String × String} (h : p.1 ≠ q.1) (ps : List (String × String)) :
    Reordered (p :: q :: ps) (q :: p :: ps)
  | trans {ps qs rs : List (String × String)} (h : Reordered ps qs) (h' : Reordered qs rs) :
    Reordered ps rs

theorem Reordered.refl (ps : List (String × String)) : Reordered ps ps := by
  induction ps with
  | nil => exact .nil
  | cons pair ps ih => exact .cons pair ih

theorem valuesUnder_cons (name : String) (pair : String × String) (ps : List (String × String)) :
    valuesUnder name (pair :: ps) =
      if pair.1 = name then pair.2 :: valuesUnder name ps else valuesUnder name ps := by
  unfold valuesUnder
  rw [List.filter_cons]
  by_cases h : pair.1 = name <;> simp [h]

theorem mem_valuesUnder {name value : String} {ps : List (String × String)} :
    value ∈ valuesUnder name ps ↔ (name, value) ∈ ps := by
  simp [valuesUnder]

/-- Reordering keeps the values of each name, in their order. -/
theorem Reordered.valuesUnder_eq {ps qs : List (String × String)} (h : Reordered ps qs)
    (name : String) : valuesUnder name ps = valuesUnder name qs := by
  induction h with
  | nil => rfl
  | cons pair _ ih => rw [valuesUnder_cons, valuesUnder_cons, ih]
  | @swap p q hne ps =>
    simp only [valuesUnder_cons]
    split <;> split <;> simp_all
  | trans _ _ ih ih' => exact ih.trans ih'

/-- A pair moves to the front of pairs of other names. -/
theorem Reordered.toFront {pair : String × String} {front : List (String × String)}
    (h : ∀ p ∈ front, p.1 ≠ pair.1) (rest : List (String × String)) :
    Reordered (pair :: (front ++ rest)) (front ++ pair :: rest) := by
  induction front with
  | nil => exact .refl _
  | cons p front ih =>
    obtain ⟨hp, hfront⟩ := List.forall_mem_cons.mp h
    exact (Reordered.swap hp.symm _).trans (.cons p (ih hfront))

/-- The first value of a name stands behind pairs of other names. -/
theorem exists_of_valuesUnder_cons {name value : String} {values : List String}
    {ps : List (String × String)} (h : valuesUnder name ps = value :: values) :
    ∃ front rest, ps = front ++ (name, value) :: rest ∧ ∀ p ∈ front, p.1 ≠ name := by
  induction ps with
  | nil => simp [valuesUnder] at h
  | cons pair ps ih =>
    rw [valuesUnder_cons] at h
    split at h
    · next hname =>
      obtain ⟨rfl, -⟩ := List.cons.inj h
      exact ⟨[], ps, by rw [← hname]; rfl, by simp⟩
    · next hname =>
      obtain ⟨front, rest, rfl, hfront⟩ := ih h
      exact ⟨pair :: front, rest, rfl, List.forall_mem_cons.mpr ⟨hname, hfront⟩⟩

/-- **Pairs are reordered exactly when each name keeps its values.** -/
theorem reordered_iff {ps qs : List (String × String)} :
    Reordered ps qs ↔ ∀ name, valuesUnder name ps = valuesUnder name qs := by
  refine ⟨Reordered.valuesUnder_eq, fun h => ?_⟩
  induction ps generalizing qs with
  | nil =>
    cases qs with
    | nil => exact .nil
    | cons pair qs =>
      have hnone := h pair.1
      rw [valuesUnder_cons, if_pos rfl] at hnone
      simp [valuesUnder] at hnone
  | cons pair ps ih =>
    -- the pair is found among the others behind pairs of other names
    obtain ⟨name, value⟩ := pair
    have hfirst := (h name).symm
    rw [valuesUnder_cons, if_pos rfl] at hfirst
    obtain ⟨front, rest, rfl, hfront⟩ := exists_of_valuesUnder_cons hfirst
    have hmove : Reordered ((name, value) :: (front ++ rest)) (front ++ (name, value) :: rest) :=
      .toFront hfront rest
    refine Reordered.trans (.cons _ (ih fun other => ?_)) hmove
    have hvalues := (h other).trans (hmove.valuesUnder_eq other).symm
    rw [valuesUnder_cons, valuesUnder_cons] at hvalues
    split at hvalues
    · exact (List.cons.inj hvalues).2
    · exact hvalues

/-! ## Parameters -/

theorem get?_parse (target name : String) :
    (parse target).get? name = gathered (valuesUnder name (decodeForm (queryOf target.toList))) :=
  get?_foldl_collect _ _

/-- What values are gathered to tells the values. -/
theorem gathered_injective : Function.Injective gathered := by
  have hstrings : ∀ {ss ts : List String}, ss.map Json.string = ts.map Json.string → ss = ts :=
    (List.map_inj_right fun _ _ h => Json.string.inj h).mp
  intro ss ts h
  match ss, ts with
  | [], [] => rfl
  | [s], [t] => simpa [gathered] using h
  | s :: s' :: ss, t :: t' :: ts => exact hstrings (Json.array.inj (Option.some.inj h))
  | [], [t] => simp [gathered] at h
  | [], t :: t' :: ts => simp [gathered] at h
  | [s], [] => simp [gathered] at h
  | [s], t :: t' :: ts => simp [gathered] at h
  | s :: s' :: ss, [] => simp [gathered] at h
  | s :: s' :: ss, [t] => simp [gathered] at h

/-- The names of parameters are the names of the pairs. -/
theorem mem_keys_parse_iff {target name : String} :
    name ∈ (parse target).keys ↔ ∃ value, (name, value) ∈ decodeForm (queryOf target.toList) := by
  rw [← Assoc.contains_iff_mem_keys, Assoc.contains_eq, get?_parse]
  simp only [← mem_valuesUnder]
  match valuesUnder name (decodeForm (queryOf target.toList)) with
  | [] => simp [gathered]
  | [s] => simp [gathered]
  | s :: s' :: ss => simp [gathered]

/-- Two targets have the same parameters when each name has the same values in both. -/
theorem parse_eq_iff {target target' : String} :
    parse target = parse target' ↔
      Reordered (decodeForm (queryOf target.toList)) (decodeForm (queryOf target'.toList)) := by
  rw [reordered_iff]
  constructor
  · intro h name
    refine gathered_injective ?_
    rw [← get?_parse, ← get?_parse, h]
  · intro h
    refine (ascending_parse target).ext (ascending_parse target') fun name => ?_
    rw [get?_parse, get?_parse, h]

/--
**Repeated names collapse without loss.** Of the pairs that the query of a target is decoded to, the
names are the names of its parameters; a name that occurs once has its value, and one that occurs
more than once the array of all its values, in order. Another target has the same parameters exactly
when its pairs are those of the first, reordered among pairs of different names.
-/
theorem parse_collapses {target : String} {query : List Char}
    (hquery : IsQueryOf target.toList query) :
    (∀ name, name ∈ (parse target).keys ↔ ∃ value, (name, value) ∈ decodeForm query) ∧
    (∀ name value, valuesUnder name (decodeForm query) = [value] →
      (parse target).get? name = some (.string value)) ∧
    (∀ name, 2 ≤ (valuesUnder name (decodeForm query)).length →
      (parse target).get? name =
        some (.array ((valuesUnder name (decodeForm query)).map .string))) ∧
    (∀ (target' : String) (query' : List Char), IsQueryOf target'.toList query' →
      (parse target = parse target' ↔ Reordered (decodeForm query) (decodeForm query'))) := by
  obtain rfl := isQueryOf_iff.mp hquery
  refine ⟨fun name => mem_keys_parse_iff, fun name value h => ?_, fun name h => ?_,
    fun target' query' hquery' => ?_⟩
  · rw [get?_parse, h]
    rfl
  · rw [get?_parse]
    match valuesUnder name (decodeForm (queryOf target.toList)), h with
    | s :: s' :: ss, _ => rfl
  · obtain rfl := isQueryOf_iff.mp hquery'
    exact parse_eq_iff

/-- The values of a repeated name are kept in order, through a pair of another name between them and
a fragment behind them. -/
theorem parse_collapses_tagged :
    IsQueryOf "/pets?tag=a&q=x+y&tag=b?#tag=c".toList "tag=a&q=x+y&tag=b?".toList ∧
      (parse "/pets?tag=a&q=x+y&tag=b?#tag=c").get? "q" = some (.string "x y") ∧
      (parse "/pets?tag=a&q=x+y&tag=b?#tag=c").get? "tag" =
        some (.array [.string "a", .string "b?"]) ∧
      parse "/pets?tag=a&q=x+y&tag=b?#tag=c" = parse "/?q=x+y&tag=a&tag=b?" := by
  have hquery : IsQueryOf "/pets?tag=a&q=x+y&tag=b?#tag=c".toList "tag=a&q=x+y&tag=b?".toList :=
    isQueryOf_iff.mpr (by decide)
  have hquery' : IsQueryOf "/?q=x+y&tag=a&tag=b?".toList "q=x+y&tag=a&tag=b?".toList :=
    isQueryOf_iff.mpr (by decide)
  have hpairs : decodeForm "tag=a&q=x+y&tag=b?".toList =
      [("tag", "a"), ("q", "x y"), ("tag", "b?")] := by decide +kernel
  have hpairs' : decodeForm "q=x+y&tag=a&tag=b?".toList =
      [("q", "x y"), ("tag", "a"), ("tag", "b?")] := by decide +kernel
  obtain ⟨-, honce, htwice, hsame⟩ := parse_collapses hquery
  rw [hpairs] at honce htwice hsame
  refine ⟨hquery, honce "q" "x y" rfl, htwice "tag" (by decide), (hsame _ _ hquery').mpr ?_⟩
  rw [hpairs']
  exact .swap (by decide) _

end Query

end ApiContract
