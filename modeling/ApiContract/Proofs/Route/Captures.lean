import ApiContract.Proofs.Assoc.Ascending
import ApiContract.Proofs.Route.Expressing
import ApiContract.Proofs.Route.Parameters
import ApiContract.Proofs.Url.Escaping
/-!
# What is captured from a path

The parameters in a path are the fillers of the placeholders of its template, without their escapes.
So values that are escaped and put in the place of the placeholders are found again under the names
of these, provided that no segment of the template has two placeholders and no two have one name.
-/

namespace ApiContract

namespace Template

/-- What stands in a filled template stands in its literal text or in a filler. -/
theorem mem_filled {ps : List TemplatePart} {fillers : List (List Char)} {c : Char}
    (h : c ∈ filled ps fillers) : .literal c ∈ ps ∨ ∃ filler ∈ fillers, c ∈ filler := by
  induction ps generalizing fillers with
  | nil => exact absurd h List.not_mem_nil
  | cons part ps ih =>
    cases part with
    | literal d =>
      rcases List.mem_cons.mp h with rfl | h
      · exact Or.inl List.mem_cons_self
      · exact (ih h).imp_left (List.mem_cons_of_mem _)
    | placeholder name =>
      cases fillers with
      | nil => exact (ih h).imp_left (List.mem_cons_of_mem _)
      | cons filler fillers =>
        rcases List.mem_append.mp h with h | h
        · exact Or.inr ⟨filler, List.mem_cons_self, h⟩
        · rcases ih h with h | ⟨other, hother, h⟩
          · exact Or.inl (List.mem_cons_of_mem _ h)
          · exact Or.inr ⟨other, List.mem_cons_of_mem _ hother, h⟩

/-- The literal text of a template stands in what is filled. -/
theorem mem_filled_of_literal {ps : List TemplatePart} {c : Char} (h : .literal c ∈ ps)
    (fillers : List (List Char)) : c ∈ filled ps fillers := by
  induction ps generalizing fillers with
  | nil => exact absurd h List.not_mem_nil
  | cons part ps ih =>
    rcases List.mem_cons.mp h with rfl | hrest
    · exact List.mem_cons_self
    · cases part with
      | literal d => exact List.mem_cons_of_mem _ (ih hrest fillers)
      | placeholder name =>
        cases fillers with
        | nil => exact ih hrest []
        | cons filler fillers => exact List.mem_append_right _ (ih hrest fillers)

/-- A path that fits is the filled template up to a slash. -/
theorem Fits.mem_iff {ps : List TemplatePart} {fillers : List (List Char)} {path : List Char}
    (h : Fits ps fillers path) {c : Char} (hc : c ≠ '/') : c ∈ path ↔ c ∈ filled ps fillers := by
  rcases h.path with rfl | rfl <;> simp [hc]

end Template

namespace Percent

/-- Whether the characters of a set are escaped that mean something in a path: those of escapes, of
segments and of queries. -/
structure KeepsPaths (set : Char → Bool) : Prop where
  percent : set '%' = true
  slash : set '/' = true
  question : set '?' = true

instance (set : Char → Bool) : Decidable (KeepsPaths set) :=
  decidable_of_iff (set '%' = true ∧ set '/' = true ∧ set '?' = true)
    ⟨fun h => ⟨h.1, h.2.1, h.2.2⟩, fun h => ⟨h.percent, h.slash, h.question⟩⟩

theorem KeepsPaths.isFiller {set : Char → Bool} (h : KeepsPaths set) {value : String}
    (hvalue : value ≠ "") : Template.IsFiller (encodeText set value) :=
  ⟨encodeText_ne_nil hvalue, not_mem_encodeText h.slash (by decide) value⟩

end Percent

open Template (Fits OnePerSegment Reads filled placeholders)

theorem PathPattern.ofTemplate_eq {template : String} {ps : List TemplatePart}
    (hroot : template ≠ "/") (hempty : template ≠ "")
    (hreads : Reads (Text.dropEnd (· = '/') template.toList) ps) :
    ofTemplate template = .parts ps := by
  rw [ofTemplate, if_neg (by simp [hroot, hempty]), hreads.parts_eq]

namespace RouteIndex

/-- The parameters that are taken from fillers, when these are values that were escaped. -/
theorem get?_paramsOf_iff {e : PathEntry} {set : Char → Bool} (hset : set '%' = true)
    (hnodup : e.pattern.names.Nodup) {values : List String}
    (hlength : values.length = e.pattern.names.length) {name value : String} :
    (paramsOf e (values.map (Percent.encodeText set))).get? name = some value ↔
      (name, value) ∈ e.pattern.names.zip values := by
  have hentries : ((e.pattern.names.zip (values.map (Percent.encodeText set))).map fun e =>
      (e.1, String.ofList (Percent.decodeText e.2))) = e.pattern.names.zip values := by
    rw [List.zip_map_right, List.map_map]
    refine (List.map_congr_left fun x _ => ?_).trans (List.map_id _)
    simp only [Function.comp, Prod.map, Percent.decodeText_encodeText hset, String.ofList_toList]
    rfl
  have hkeys : Assoc.keys (e.pattern.names.zip values) = e.pattern.names :=
    List.map_fst_zip (le_of_eq hlength.symm)
  rw [paramsOf, hentries, Assoc.get?_ofList_eq_some_iff (by rwa [hkeys])]

/-- A route that is found fits the path up to its query. -/
theorem exists_fits_of_matched {routes : List Route} {method : Method} {path : String}
    {route : Route} {params : Assoc String} {ps : List TemplatePart}
    (h : (ofRoutes routes).lookup method path = .matched route params)
    (hpattern : PathPattern.ofTemplate route.template = .parts ps) :
    ∃ e fillers, e.pattern = .parts ps ∧ params = paramsOf e fillers ∧
      Template.fill? ps (Text.before (· = '?') path.toList) = some fillers := by
  obtain ⟨e, he, hop, fillers, hfill, hparams⟩ := exists_entry_of_matched h
  obtain ⟨-, ht, -⟩ := mem_of_operation he hop
  have he' : e.pattern = .parts ps := by
    rw [((holds_ofRoutes routes).1.sound e he).pattern, ← ht, hpattern]
  rw [he'] at hfill
  exact ⟨e, fillers, he', hparams, hfill⟩

/--
**Matching a template is filling its placeholders.** Of a template that is not the root, without the
slashes at its end, let the parts be read. A path matches exactly if it is their text, with
something other than slashes in the place of each placeholder and one slash more or none; the
expression of the template is read as a pattern that occurs in just these paths. If no
segment has two placeholders then what is captured is the one way to fill them, in their order. If
also their names differ, then a path in which escaped values are filled in matches, and a look-up of
it that finds the template gives each name its value, and nothing else.
-/
theorem matches_iff_fits {template : String} {ps : List TemplatePart} (hroot : template ≠ "/")
    (hempty : template ≠ "") (hreads : Reads (Text.dropEnd (· = '/') template.toList) ps) :
    (∃ pattern, Pattern.read? (PathPattern.ofTemplate template).expression = some pattern ∧
      ∀ path : String, pattern.occursIn path = true ↔ ∃ fillers, Fits ps fillers path.toList) ∧
    (∀ path : String, Matches template path ↔ ∃ fillers, Fits ps fillers path.toList) ∧
    (OnePerSegment ps →
      (∀ (path : String) (fillers : List (List Char)),
        (PathPattern.ofTemplate template).fill? path.toList = some fillers ↔
          Fits ps fillers path.toList) ∧
      ((placeholders ps).Nodup → ∀ set, Percent.KeepsPaths set →
        ∀ values : List String, values.length = (placeholders ps).length →
          (∀ value ∈ values, value ≠ "") →
          ∀ path : String, (path.toList = filled ps (values.map (Percent.encodeText set)) ∨
              path.toList = filled ps (values.map (Percent.encodeText set)) ++ ['/']) →
            Matches template path ∧
            ∀ routes method route params,
              (ofRoutes routes).lookup method path = .matched route params →
                route.template = template → ∀ name value, params.get? name = some value ↔
                  (name, value) ∈ (placeholders ps).zip values)) := by
  have hpattern := PathPattern.ofTemplate_eq hroot hempty hreads
  have hmatches : ∀ path : String,
      Matches template path ↔ ∃ fillers, Fits ps fillers path.toList := by
    intro path
    rw [Matches, hpattern]
    exact Template.isSome_fill?_iff
  have hexpression : ∃ pattern,
      Pattern.read? (PathPattern.ofTemplate template).expression = some pattern ∧
        ∀ path : String, pattern.occursIn path = true ↔
          ∃ fillers, Fits ps fillers path.toList := by
    refine ⟨_, PathPattern.read?_expression _, fun path => ?_⟩
    rw [PathPattern.occursIn_pattern]
    exact hmatches path
  refine ⟨hexpression, hmatches, fun hone => ⟨fun path fillers => ?_, ?_⟩⟩
  · rw [hpattern]
    exact Template.fill?_eq_some_iff hone
  intro hnodup set hset values hlength hvalues path hpath
  have hfits : Fits ps (values.map (Percent.encodeText set)) path.toList := by
    refine ⟨by rw [List.length_map, hlength], ?_, hpath⟩
    rw [List.forall_mem_map]
    exact fun value hvalue => hset.isFiller (hvalues value hvalue)
  refine ⟨(hmatches path).mpr ⟨_, hfits⟩, ?_⟩
  rintro routes method route params hlookup rfl name value
  obtain ⟨e, fillers, he, rfl, hfill⟩ := exists_fits_of_matched hlookup hpattern
  have hcut := Template.fits_of_fill? hfill
  -- a question mark would be in the literal text, and the path that was cut does not hold it
  have hquestion : '?' ∉ path.toList := by
    rw [hfits.mem_iff (by decide)]
    intro hmem
    rcases Template.mem_filled hmem with hliteral | ⟨filler, hfiller, hin⟩
    · have hmem := Template.mem_filled_of_literal hliteral fillers
      rw [← hcut.mem_iff (by decide)] at hmem
      simpa using List.mem_takeWhile_imp hmem
    · obtain ⟨value, -, rfl⟩ := List.mem_map.mp hfiller
      exact Percent.not_mem_encodeText hset.question (by decide) value hin
  rw [Text.before_of_not_mem hquestion] at hcut
  obtain rfl := hcut.unique hone hfits
  have hnames : e.pattern.names = placeholders ps := by rw [he]; rfl
  rw [← hnames] at hnodup hlength ⊢
  exact get?_paramsOf_iff hset.percent hnodup hlength

/-- The toys of a pet, one by one. -/
def toysTemplate : String := "/pets/\x7bid\x7d/toys/\x7btoy\x7d/"

/-- All but letters, digits and a few marks. -/
def isReserved (c : Char) : Bool := !(c.isAlphanum || "-._~".toList.contains c)

/-- Values that hold a blank, a slash and a question mark are captured as they were, and the
expression matches as well. -/
theorem matches_iff_fits_toys :
    ∃ ps, toysTemplate ≠ "/" ∧ toysTemplate ≠ "" ∧
      Reads (Text.dropEnd (· = '/') toysTemplate.toList) ps ∧ OnePerSegment ps ∧
      (placeholders ps).Nodup ∧ Percent.KeepsPaths isReserved ∧
      Matches toysTemplate "/pets/a%20b/toys/%2F%3F/" ∧
      (∃ pattern, Pattern.read? "^/pets/([^/]+)/toys/([^/]+)/?$" = some pattern ∧
        pattern.occursIn "/pets/a%20b/toys/%2F%3F/" = true) ∧
      ∃ params, (ofRoutes [plainRoute .get toysTemplate]).lookup .get "/pets/a%20b/toys/%2F%3F/" =
          .matched (plainRoute .get toysTemplate) params ∧
        params.get? "id" = some "a b" ∧ params.get? "toy" = some "/?" := by
  have hroot : toysTemplate ≠ "/" := by decide
  have hempty : toysTemplate ≠ "" := by decide
  have hreads := Template.reads_parts (Text.dropEnd (· = '/') toysTemplate.toList)
  have hone : OnePerSegment (Template.parts (Text.dropEnd (· = '/') toysTemplate.toList)) := by
    decide +kernel
  have hnames : placeholders (Template.parts (Text.dropEnd (· = '/') toysTemplate.toList)) =
      ["id", "toy"] := by decide +kernel
  have hset : Percent.KeepsPaths isReserved := by decide
  have hnodup : (placeholders (Template.parts
      (Text.dropEnd (· = '/') toysTemplate.toList))).Nodup := by rw [hnames]; decide
  obtain ⟨⟨pattern, hpattern, hoccurs⟩, hfits, hfilled⟩ := matches_iff_fits hroot hempty hreads
  obtain ⟨hmatches, hparams⟩ := (hfilled hone).2 hnodup isReserved hset ["a b", "/?"]
    (by rw [hnames]; rfl) (by decide) "/pets/a%20b/toys/%2F%3F/" (Or.inr (by decide +kernel))
  have hlookup : (ofRoutes [plainRoute .get toysTemplate]).lookup .get
      "/pets/a%20b/toys/%2F%3F/" = .matched (plainRoute .get toysTemplate)
        [("id", "a b"), ("toy", "/?")] := by decide +kernel
  have htext : (PathPattern.ofTemplate toysTemplate).expression =
      "^/pets/([^/]+)/toys/([^/]+)/?$" := by decide +kernel
  refine ⟨_, hroot, hempty, hreads, hone, hnodup, hset, hmatches,
    ⟨pattern, htext ▸ hpattern, (hoccurs _).mpr ((hfits _).mp hmatches)⟩, _, hlookup, ?_⟩
  have hvalues := hparams _ _ _ _ hlookup rfl
  rw [hnames] at hvalues
  exact ⟨(hvalues _ _).mpr (by decide), (hvalues _ _).mpr (by decide)⟩

end RouteIndex

end ApiContract
