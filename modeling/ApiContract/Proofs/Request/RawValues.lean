import ApiContract.Proofs.Request.Apart
import ApiContract.Proofs.Request.Arrays
/-!
# What becomes of the raw values of a query parameter

A query parameter that is declared once is reshaped by the directives that its definition calls for,
whatever else its route declares. If it is split at a delimiter and not decoded, it makes no
difference whether its values are sent one by one or joined by the delimiter. If it is decoded to an
array of objects, nothing that comes after decoding changes the array.
-/

namespace ApiContract

namespace Reshape

/-! ## Splitting -/

/-- Raw values in one, with a delimiter between them. -/
def joined (delimiter : Char) (raws : List String) : String :=
  String.ofList ([delimiter].intercalate (raws.map String.toList))

/-- Splitting what was joined splits each of the raw values. -/
theorem split_joined (delimiter : Char) {raws : List String} (hne : raws ≠ []) :
    split delimiter (joined delimiter raws) = raws.flatMap (split delimiter) := by
  have hne' : raws.map String.toList ≠ [] := by simpa using hne
  unfold split joined
  rw [String.toList_ofList, Text.splitOn_intercalate_eq_flatMap delimiter hne', List.flatMap_map,
    List.map_flatMap]

/-- Two raw values or more are not joined to the empty one. -/
theorem joined_ne_empty (delimiter : Char) (first second : String) (rest : List String) :
    joined delimiter (first :: second :: rest) ≠ "" := by
  unfold joined
  rw [List.map_cons, List.map_cons, List.intercalate_cons_cons]
  simp

theorem splitArray_reshaped_string (delimiter : Char) {raw : String} (h : raw ≠ "") :
    (splitArray delimiter).reshaped (.string raw) = .array (split delimiter raw) := by
  have hpresent : Directive.isPresent (some (.string raw)) = true := by
    simpa [Directive.isPresent] using h
  rw [reshaped, if_pos hpresent]
  rfl

/-- What raw values are split to: a single empty one stays as it is. -/
def pieces (delimiter : Char) (raws : List String) : Json :=
  if raws = [""] then .string "" else .array (raws.flatMap (split delimiter))

/-- Raw values that are gathered are split one by one. -/
theorem splitArray_reshaped_gathered (delimiter : Char) {raws : List String} (hne : raws ≠ []) :
    (Query.gathered raws).map (splitArray delimiter).reshaped = some (pieces delimiter raws) := by
  unfold pieces
  match raws with
  | [] => exact absurd rfl hne
  | [raw] =>
    by_cases hraw : raw = ""
    · subst hraw
      rfl
    · rw [if_neg (by simpa using hraw), List.flatMap_singleton]
      exact congrArg some (splitArray_reshaped_string delimiter hraw)
  | first :: second :: rest =>
    show some ((splitArray delimiter).reshaped (.array ((first :: second :: rest).map .string))) = _
    rw [if_neg (by simp), reshaped,
      if_pos (show Directive.isPresent (some (Json.array _)) = true from rfl),
      convert?_splitArray_array, Option.getD_some, List.flatMap_map]
    rfl

/-- So is the one that they are joined to. -/
theorem splitArray_reshaped_joined (delimiter : Char) {raws : List String} (hne : raws ≠ []) :
    (Query.gathered [joined delimiter raws]).map (splitArray delimiter).reshaped =
      some (pieces delimiter raws) := by
  match raws with
  | [] => exact absurd rfl hne
  | [raw] =>
    have hraw : joined delimiter [raw] = raw := by
      rw [joined, List.map_singleton, List.intercalate_singleton, String.ofList_toList]
    rw [hraw, splitArray_reshaped_gathered delimiter hne]
  | first :: second :: rest =>
    rw [pieces, if_neg (by simp), ← split_joined delimiter hne]
    exact congrArg some
      (splitArray_reshaped_string delimiter (joined_ne_empty delimiter first second rest))

/-! ## Arrays that hold no texts -/

/-- No conversion changes an array without texts. -/
theorem reshaped_array (x : Reshape) {items : List Json} (h : ∀ v ∈ items, ∀ s, v ≠ .string s) :
    x.reshaped (.array items) = .array items := by
  rw [reshaped, if_pos (show Directive.isPresent (some (Json.array _)) = true from rfl)]
  cases x with
  | parseJson => rfl
  | wrapSingle => rfl
  | splitArray delimiter =>
    have hitems : ∀ v ∈ items, splitItem delimiter v = [v] := by
      intro v hv
      cases v with
      | string s => exact absurd rfl (h _ hv s)
      | _ => rfl
    rw [convert?_splitArray_array, List.flatMap_def, List.map_congr_left hitems,
      ← List.flatMap_def, List.flatMap_singleton']
    rfl

theorem reshapedBy_array (xs : List Reshape) {items : List Json}
    (h : ∀ v ∈ items, ∀ s, v ≠ .string s) : reshapedBy xs (.array items) = .array items := by
  induction xs with
  | nil => rfl
  | cons x xs ih => rw [reshapedBy, List.foldl_cons, reshaped_array x h]; exact ih

theorem parseJson_reshaped {raw : String} {v : Json} (h : Json.parse? raw = some v) :
    parseJson.reshaped (.string raw) = v := by
  have hne : raw ≠ "" := by
    rintro rfl
    cases h
  have hpresent : Directive.isPresent (some (.string raw)) = true := by
    simpa [Directive.isPresent] using hne
  rw [reshaped, if_pos hpresent, convert?, h]
  rfl

end Reshape

namespace RequestSchema

variable {c : Contract} {route : Route} {contentType : ContentType} {schema : RequestSchema}
  {name : String} {d : ParameterDefinition}

/-- What the directives of a schema make of the raw values that a target has under a name. -/
theorem get?_applyDirectives {r : Request} {raws : List String}
    (h : Query.HasValues r.target name raws) :
    (RequestValidator.applyDirectives schema.directives (Query.parse r.target) r).1.get? name =
      (Query.gathered raws).map (Reshape.reshapedBy (schema.reshapesOf name)) := by
  rw [RequestValidator.applyDirectives_fst, Directive.get?_applyAll,
    Query.get?_parse_of_hasValues h]
  exact congrArg (Option.map · _) (funext (schema.reshapeAll_directives name))

/--
**Sending values one by one or joined.** A route declares a query parameter once; it is split at a
delimiter and not decoded. One target has several raw values under its name, another has them in
one, joined by the delimiter. Then the directives make the same of both, the array of the pieces of
all raw values in order, or the empty text of a single empty value. They make this also of the query
of a host that holds under the name what the target has.
-/
theorem repeated_eq_joined (h : synthesize c route contentType = .ok schema)
    (hd : route.DeclaresOnce c name d) {delimiter : Char}
    (hsplit : ⟨.splitArray delimiter, name, .query⟩ ∈ schema.directives)
    (hplain : ⟨.parseJson, name, .query⟩ ∉ schema.directives)
    {raws : List String} (hne : raws ≠ []) {r r' : Request}
    (hrepeated : Query.HasValues r.target name raws)
    (hjoined : Query.HasValues r'.target name [Reshape.joined delimiter raws]) :
    let v := if raws = [""] then .string "" else .array (raws.flatMap (Reshape.split delimiter))
    let state := RequestValidator.applyDirectives schema.directives (Query.parse r.target) r
    let state' := RequestValidator.applyDirectives schema.directives (Query.parse r'.target) r'
    state.1.get? name = some v ∧ state'.1.get? name = some v ∧
      ((Query.parse r.target).get? name = r.query.get? name →
        state.2.query.get? name = some v) ∧
      ((Query.parse r'.target).get? name = r'.query.get? name →
        state'.2.query.get? name = some v) := by
  obtain ⟨source, -, hreshapes, -⟩ := exists_of_declaresOnce h hd
  have hall : schema.reshapesOf name = [.splitArray delimiter] :=
    Synthesis.eq_of_splitArray_mem hreshapes (mem_reshapesOf_iff.mpr hsplit)
      fun hmem => hplain (mem_reshapesOf_iff.mp hmem)
  intro v state state'
  have hstate : state.1.get? name = some v := by
    refine (get?_applyDirectives hrepeated).trans ?_
    rw [hall]
    exact Reshape.splitArray_reshaped_gathered delimiter hne
  have hstate' : state'.1.get? name = some v := by
    refine (get?_applyDirectives hjoined).trans ?_
    rw [hall]
    exact Reshape.splitArray_reshaped_joined delimiter hne
  exact ⟨hstate, hstate',
    fun hagree => (RequestValidator.get?_query_applyDirectives _ hagree).trans hstate,
    fun hagree => (RequestValidator.get?_query_applyDirectives _ hagree).trans hstate'⟩

/-- Numbers with a bar between them and in front, in two values and in one. -/
def twoValues : Request := .ofTarget Method.get "/a?n=1|2&n=%7C3"

def oneValue : Request := .ofTarget Method.get "/a?n=1|2||3"

set_option maxRecDepth 10000 in
/-- Both are split to four pieces, one of them empty. -/
theorem repeated_eq_joined_numbers :
    ∃ m, listedValidator.matching? listedValidator.stores twoValues = some m ∧
      (RequestValidator.applyDirectives m.plan.schema.directives (Query.parse twoValues.target)
        twoValues).1.get? "n" =
          some (.array [.string "1", .string "2", .string "", .string "3"]) ∧
      (RequestValidator.applyDirectives m.plan.schema.directives (Query.parse oneValue.target)
        oneValue).1.get? "n" =
          some (.array [.string "1", .string "2", .string "", .string "3"]) := by
  have h : (listedValidator.matching? listedValidator.stores twoValues).map
      (fun m => (m.route.parameters, m.plan.schema.directives)) =
        some ([textsParameter, numbersParameter],
          [⟨.splitArray '|', "n", .query⟩, ⟨.wrapSingle, "m", .query⟩]) := by decide +kernel
  obtain ⟨m, hm, heq⟩ := Option.map_eq_some_iff.mp h
  obtain ⟨hparameters, hdirectives⟩ := Prod.mk.inj heq
  obtain ⟨contentType, hbuild⟩ := Validator.build_of_matching?_stores hm
  have hrepeated : Query.HasValues twoValues.target "n" ["1|2", "|3"] :=
    ⟨"n=1|2&n=%7C3".toList, Query.isQueryOf_iff.mpr (by decide), by decide +kernel⟩
  have hjoined : Query.HasValues oneValue.target "n" [Reshape.joined '|' ["1|2", "|3"]] :=
    ⟨"n=1|2||3".toList, Query.isQueryOf_iff.mpr (by decide), by decide +kernel⟩
  obtain ⟨hv, hv', -⟩ := repeated_eq_joined (RequestPlan.build_eq_ok_iff.mp hbuild).1
    (declaresArray_n hparameters).once (by rw [hdirectives]; decide) (by rw [hdirectives]; decide)
    (by decide) hrepeated hjoined
  have hpieces : ["1|2", "|3"].flatMap (Reshape.split '|') =
      [.string "1", .string "2", .string "", .string "3"] := by decide +kernel
  rw [if_neg (by decide), hpieces] at hv hv'
  exact ⟨m, hm, hv, hv'⟩

/--
**An encoded array of objects is left as it was decoded.** A route declares a query parameter once,
and it is decoded. A target has one raw value under its name, a JSON text for an array of objects.
Then that array is what the directives make of it, however the objects look and whatever comes after
decoding, in the fresh query and in the query of a host that holds the same raw value.
-/
theorem encoded_objects_kept (h : synthesize c route contentType = .ok schema)
    (hd : route.DeclaresOnce c name d)
    (hdecoded : ⟨.parseJson, name, .query⟩ ∈ schema.directives)
    {raw : String} {items : List Json} (hraw : Json.parse? raw = some (.array items))
    (hobjects : ∀ v ∈ items, ∃ members, v = .object members) {r : Request}
    (hvalue : Query.HasValues r.target name [raw]) :
    let state := RequestValidator.applyDirectives schema.directives (Query.parse r.target) r
    state.1.get? name = some (.array items) ∧
      (r.query.get? name = some (.string raw) →
        state.2.query.get? name = some (.array items)) := by
  obtain ⟨source, -, hreshapes, -⟩ := exists_of_declaresOnce h hd
  obtain ⟨ys, hall⟩ :=
    Synthesis.exists_of_parseJson_mem hreshapes (mem_reshapesOf_iff.mpr hdecoded)
  have hnoText : ∀ v ∈ items, ∀ s, v ≠ .string s := by
    intro v hv s
    obtain ⟨members, rfl⟩ := hobjects v hv
    simp
  intro state
  have hstate : state.1.get? name = some (.array items) := by
    refine (get?_applyDirectives hvalue).trans ?_
    rw [hall, Query.gathered, Option.map_some, Reshape.reshapedBy, List.foldl_cons,
      Reshape.parseJson_reshaped hraw]
    exact congrArg some (Reshape.reshapedBy_array ys hnoText)
  refine ⟨hstate, fun hhost => ?_⟩
  have hagree : (Query.parse r.target).get? name = r.query.get? name := by
    rw [Query.get?_parse_of_hasValues hvalue, hhost, Query.gathered]
  exact (RequestValidator.get?_query_applyDirectives _ hagree).trans hstate

/-- An object with a comma in its text, as a JSON text and in a target. -/
def commaText : String := "[\x7b\"a\":\"x,y\"\x7d]"

def commaRequest : Request := .ofTarget Method.get "/a?m=[%7B%22a%22:%22x,y%22%7D]"

set_option maxRecDepth 10000 in
/-- It is not split, though values are split at commas. -/
theorem encoded_objects_kept_comma :
    Json.parse? commaText = some (.array [.object [("a", .string "x,y")]]) ∧
      ∃ m, undecidedValidator.matching? undecidedValidator.stores commaRequest = some m ∧
        ⟨.splitArray ',', "m", .query⟩ ∈ m.plan.schema.directives ∧
        (RequestValidator.applyDirectives m.plan.schema.directives
            (Query.parse commaRequest.target) commaRequest).2.query.get? "m" =
          some (.array [.object [("a", .string "x,y")]]) := by
  have h : (undecidedValidator.matching? undecidedValidator.stores commaRequest).map
      (fun m => (m.route.parameters, m.plan.schema.directives)) =
        some ([explodedParameter, delimitedParameter],
          [⟨.parseJson, "n", .query⟩, ⟨.parseJson, "m", .query⟩, ⟨.splitArray ',', "m", .query⟩,
            ⟨.wrapSingle, "n", .query⟩]) := by decide +kernel
  obtain ⟨m, hm, heq⟩ := Option.map_eq_some_iff.mp h
  obtain ⟨hparameters, hdirectives⟩ := Prod.mk.inj heq
  obtain ⟨contentType, hbuild⟩ := Validator.build_of_matching?_stores hm
  have hraw : Json.parse? commaText = some (.array [.object [("a", .string "x,y")]]) := by
    decide +kernel
  have hdeclares : m.route.DeclaresOnce undecided "m"
      ⟨"m", "query", false, some (.direct textsOrObject), none, some false⟩ := by
    refine ⟨[explodedParameter], delimitedParameter, [], delimitedParameter, hparameters, rfl,
      ⟨rfl, rfl⟩, rfl, ?_⟩
    intro other hother
    obtain rfl := List.mem_singleton.mp hother
    exact Contract.not_writesInQuery rfl (by decide)
  have hvalue : Query.HasValues commaRequest.target "m" [commaText] :=
    ⟨"m=[%7B%22a%22:%22x,y%22%7D]".toList, Query.isQueryOf_iff.mpr (by decide), by decide +kernel⟩
  obtain ⟨-, hhost⟩ := encoded_objects_kept (RequestPlan.build_eq_ok_iff.mp hbuild).1 hdeclares
    (by rw [hdirectives]; decide) hraw (by simp) hvalue
  exact ⟨hraw, m, hm, by rw [hdirectives]; decide, hhost (by decide +kernel)⟩

end RequestSchema

end ApiContract
