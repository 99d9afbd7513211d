import ApiContract.Proofs.Media.Buckets
import ApiContract.Proofs.Route.Operations
import ApiContract.Proofs.Store.Transparency
/-!
# Keys that collide

The key of a plan joins a method, a template and a bucket with hyphens, and the last two may hold
hyphens themselves. No method of an operation does, so the keys of two routes collide only when the
template of one is that of the other with a hyphen and more behind it, and what is more begins a
bucket. Buckets are free enough that most texts do.
-/

namespace ApiContract

open Text

/-! ## What begins a bucket -/

/-- Whether a text, with a hyphen behind it, begins a bucket. -/
structure ContentType.Begins (front : List Char) : Prop where
  /-- Its first line does not start with white space, -/
  start : (firstLine front).dropWhile isWhite = firstLine front
  /-- nor is it cut at a boundary. -/
  uncut : IsUncut (firstLine front)
  /-- No parameter is left open: the hyphen would stand in it. -/
  closed : (splitOn ';' front).length ≠ 2
  /-- The first parameter is blank, if there is one. -/
  blank : firstParameter front = []

namespace ContentType

theorem begins_iff_and {front : List Char} :
    Begins front ↔ (firstLine front).dropWhile isWhite = firstLine front ∧
      IsUncut (firstLine front) ∧ (splitOn ';' front).length ≠ 2 ∧ firstParameter front = [] :=
  ⟨fun h => ⟨h.start, h.uncut, h.closed, h.blank⟩, fun h => ⟨h.1, h.2.1, h.2.2.1, h.2.2.2⟩⟩

instance (front : List Char) : Decidable (Begins front) := decidable_of_iff _ begins_iff_and.symm

/-- A first parameter that goes on behind a text is blank only if it does not start in the text. -/
theorem firstParameter_of_append_cons {front rest : List Char} {c : Char} (hc : isWhite c = false)
    (hsep : c ≠ ';') (h : firstParameter (front ++ c :: rest) = []) :
    (splitOn ';' front).length ≠ 2 ∧ firstParameter front = [] := by
  rcases splitOn_cases ';' front with
    hmem | ⟨first, second, rfl, hfirst, hsecond⟩ | ⟨first, second, more, rfl, hfirst, hsecond⟩
  · simp [splitOn_of_not_mem hmem, firstParameter_of_not_mem hmem]
  · -- the character stands in the parameter
    rw [List.append_assoc, List.cons_append, firstParameter_append_cons hfirst,
      before_append_of_not_mem hsecond, before, List.takeWhile_cons_of_pos (by simp [hsep])] at h
    exact absurd h (trim_append_cons_ne_nil second hc _)
  · rw [List.append_assoc, List.cons_append, List.append_assoc, List.cons_append,
      firstParameter_append_cons_cons hfirst] at h
    refine ⟨?_, by rw [firstParameter_append_cons_cons hfirst, h]⟩
    have hpos := List.length_pos_iff.mpr (splitOn_ne_nil ';' more)
    rw [splitOn_append_cons hfirst, splitOn_append_cons hsecond]
    simp only [List.length_cons]
    omega

/-- A blank first parameter stays one when more parameters are written behind it. -/
theorem firstParameter_append {front rest : List Char} (hclosed : (splitOn ';' front).length ≠ 2)
    (hblank : firstParameter front = []) (hrest : ';' ∉ rest) :
    firstParameter (front ++ rest) = [] := by
  rcases splitOn_cases ';' front with
    hmem | ⟨first, second, rfl, hfirst, hsecond⟩ | ⟨first, second, more, rfl, hfirst, hsecond⟩
  · exact firstParameter_of_not_mem (by simp [hmem, hrest])
  · simp [splitOn_append_cons hfirst, splitOn_of_not_mem hsecond] at hclosed
  · rw [firstParameter_append_cons_cons hfirst] at hblank
    rw [List.append_assoc, List.cons_append, List.append_assoc, List.cons_append,
      firstParameter_append_cons_cons hfirst, hblank]

/-- What begins the bucket of a header. -/
theorem Begins.of_bucket {raw front rest : List Char} (htrim : trim raw = raw)
    (h : (bucket (some (partsOf raw))).toList = front ++ '-' :: rest) : Begins front := by
  rw [bucket_partsOf] at h
  split at h
  · next hblank =>
    rw [String.toList_ofList] at h
    obtain ⟨hraw, huncut⟩ := firstLine_cutBoundary raw
    rw [h] at hraw huncut hblank
    have hline := firstLine_append_isPrefix front ('-' :: rest)
    obtain ⟨hclosed, hblank⟩ := firstParameter_of_append_cons (by decide) (by decide) hblank
    exact ⟨dropWhile_of_isPrefix (hline.trans hraw) (htrim ▸ dropWhile_isWhite_trim raw),
      huncut.of_isPrefix hline, hclosed, hblank⟩
  · obtain ⟨hmedia, hsemicolon⟩ := mediaType_partsOf raw
    rw [h] at hmedia hsemicolon
    have hfront : ';' ∉ front := fun hmem => hsemicolon (List.mem_append_left _ hmem)
    have hstart : front.dropWhile isWhite = front :=
      dropWhile_of_isPrefix (List.prefix_append front _) (hmedia ▸ dropWhile_isWhite_trim _)
    refine ⟨dropWhile_of_isPrefix (firstLine_isPrefix front) hstart,
      cutBoundary_of_not_mem fun hmem => hfront ((firstLine_isPrefix front).mem hmem), ?_,
      firstParameter_of_not_mem hfront⟩
    simp [splitOn_of_not_mem hfront]

/-- There is a header whose bucket goes on with a hyphen and a letter. -/
theorem Begins.exists_header {front : List Char} (h : Begins front) :
    ∃ header, (bucket (parse (some header))).toList = front ++ ['-', 'x'] := by
  have hline : (firstLine (front ++ ['-', 'x'])).dropWhile isWhite =
      firstLine (front ++ ['-', 'x']) ∧ IsUncut (firstLine (front ++ ['-', 'x'])) := by
    rcases firstLine_append front ['-', 'x'] with hsame | ⟨hfront, hmore⟩
    · exact hsame ▸ ⟨h.start, h.uncut⟩
    · have hstart := h.start
      have huncut := h.uncut
      rw [hfront] at hstart huncut
      rw [hmore]
      exact ⟨dropWhile_append_cons_of_start hstart (by decide) _,
        (huncut.cutBoundary_append_cons (by decide) (by decide)).trans rfl⟩
  have hlist : front ++ ['-', 'x'] = front ++ ['-'] ++ ['x'] := by simp
  rw [hlist] at hline ⊢
  obtain ⟨header, raw, hparse, hraw⟩ := ContentType.exists_header hline.1 hline.2 (by decide)
  refine ⟨header, ?_⟩
  rw [hparse, bucket_partsOf, hraw, if_pos, String.toList_ofList]
  rw [← hlist]
  exact firstParameter_append h.closed h.blank (by decide)

/-- **A text, with a hyphen and a bucket behind it, is a bucket** exactly when it begins one. -/
theorem begins_iff {front : List Char} :
    Begins front ↔ ∃ header header', (bucket (parse header)).toList =
      front ++ '-' :: (bucket (parse header')).toList := by
  constructor
  · intro h
    obtain ⟨header, hbucket⟩ := h.exists_header
    exact ⟨some header, some "x", hbucket⟩
  · rintro ⟨header, header', hbucket⟩
    cases hparse : parse header with
    | none =>
      rw [hparse] at hbucket
      have hmem : '-' ∈ (bucket none).toList := by simp [hbucket]
      exact absurd hmem (by decide)
    | some h =>
      obtain ⟨raw, htrim, rfl⟩ := exists_trimmed_of_parse hparse
      rw [hparse] at hbucket
      exact Begins.of_bucket htrim hbucket

end ContentType

/-! ## Keys in text -/

/-- A text is cut in two at a separator in one way, or its parts are shifted by a text between two
separators. -/
theorem Text.append_cons_eq_append_cons_iff {sep : Char} {front rest front' rest' : List Char} :
    front ++ sep :: rest = front' ++ sep :: rest' ↔
      (front = front' ∧ rest = rest') ∨
        (∃ between, front' = front ++ sep :: between ∧ rest = between ++ sep :: rest') ∨
          ∃ between, front = front' ++ sep :: between ∧ rest' = between ++ sep :: rest := by
  constructor
  · intro h
    rcases List.append_eq_append_iff.mp h with ⟨more, hfront, hrest⟩ | ⟨more, hfront, hrest⟩
    · cases more with
      | nil => exact Or.inl ⟨by simp [hfront], by simpa using hrest⟩
      | cons c between =>
        obtain ⟨rfl, hbetween⟩ := List.cons.inj hrest
        exact Or.inr (Or.inl ⟨between, hfront, hbetween⟩)
    · cases more with
      | nil => exact Or.inl ⟨by simp [hfront], by simpa using hrest.symm⟩
      | cons c between =>
        obtain ⟨rfl, hbetween⟩ := List.cons.inj hrest
        exact Or.inr (Or.inr ⟨between, hfront, hbetween⟩)
  · rintro (⟨rfl, rfl⟩ | ⟨between, rfl, rfl⟩ | ⟨between, rfl, rfl⟩) <;> simp

namespace StoreKey

/-- The key for requests to a route with a header. -/
def ofHeader (r : Route) (header : Option String) : StoreKey :=
  .of r.method r.template (ContentType.parse header)

theorem toList_render (k : StoreKey) :
    k.render.toList = k.method.name.toList ++ '-' :: (k.template.toList ++ '-' :: k.bucket.toList) := by
  simp [render]

/-- Behind methods without a hyphen, the methods can be told from the text. -/
theorem render_eq_render_iff {k k' : StoreKey} (h : '-' ∉ k.method.name.toList)
    (h' : '-' ∉ k'.method.name.toList) :
    k.render = k'.render ↔ k.method = k'.method ∧
      k.template.toList ++ '-' :: k.bucket.toList =
        k'.template.toList ++ '-' :: k'.bucket.toList := by
  rw [← String.toList_inj, toList_render, toList_render, append_cons_eq_append_cons_iff]
  constructor
  · rintro (⟨hname, hrest⟩ | ⟨between, hname, -⟩ | ⟨between, hname, -⟩)
    · have hname := String.toList_inj.mp hname
      cases hk : k.method
      cases hk' : k'.method
      simp_all
    · simp [hname] at h'
    · simp [hname] at h
  · rintro ⟨hmethod, hrest⟩
    exact Or.inl ⟨by rw [hmethod], hrest⟩

end StoreKey

namespace Contract

/-- No operation has a method with a hyphen. -/
theorem not_mem_method {c : Contract} {routes : List Route} (hroutes : c.routes = .ok routes)
    {r : Route} (hr : r ∈ routes) : '-' ∉ r.method.name.toList := by
  obtain ⟨o, ⟨-, key, hkey, -⟩, rfl⟩ := (mem_routes_iff hroutes).mp hr
  have hall : ∀ k ∈ operationKeys, '-' ∉ k.2.name.toList := by decide
  exact hall _ hkey

/-- **When keys tell routes apart.** Keys of equal text are of one method and one template, for all
routes of a contract and all headers, exactly when no template goes on behind another of its method
with a hyphen and what begins a bucket. -/
theorem keys_tell_routes_iff {c : Contract} {routes : List Route}
    (hroutes : c.routes = .ok routes) :
    (∀ r ∈ routes, ∀ r' ∈ routes, ∀ header header' : Option String,
      (StoreKey.ofHeader r header).render = (StoreKey.ofHeader r' header').render →
        r.method = r'.method ∧ r.template = r'.template) ↔
      ∀ r ∈ routes, ∀ r' ∈ routes, r.method = r'.method → ∀ rest : List Char,
        r'.template.toList = r.template.toList ++ '-' :: rest → ¬ ContentType.Begins rest := by
  have hrender : ∀ {r r' : Route}, r ∈ routes → r' ∈ routes → ∀ header header',
      (StoreKey.ofHeader r header).render = (StoreKey.ofHeader r' header').render ↔ _ :=
    fun hr hr' _ _ =>
      StoreKey.render_eq_render_iff (not_mem_method hroutes hr) (not_mem_method hroutes hr')
  constructor
  · intro h r hr r' hr' hmethod rest htemplate hbegins
    obtain ⟨header, header', hbucket⟩ := ContentType.begins_iff.mp hbegins
    have hequal := h r hr r' hr' header header' <| (hrender hr hr' header header').mpr
      ⟨hmethod, append_cons_eq_append_cons_iff.mpr (Or.inr (Or.inl ⟨rest, htemplate, hbucket⟩))⟩
    rw [← hequal.2] at htemplate
    simp at htemplate
  · intro h r hr r' hr' header header' hequal
    obtain ⟨hmethod, htext⟩ := (hrender hr hr' header header').mp hequal
    refine ⟨hmethod, ?_⟩
    rcases append_cons_eq_append_cons_iff.mp htext with
      ⟨htemplate, -⟩ | ⟨rest, htemplate, hbucket⟩ | ⟨rest, htemplate, hbucket⟩
    · exact String.toList_inj.mp htemplate
    · exact absurd (ContentType.begins_iff.mpr ⟨header, header', hbucket⟩)
        (h r hr r' hr' hmethod rest htemplate)
    · exact absurd (ContentType.begins_iff.mpr ⟨header', header, hbucket⟩)
        (h r' hr' r hr hmethod.symm rest htemplate)

end Contract

/-- A contract with `GET /a` and `GET /a-b;v=1`: a header with the same text would have its hyphen
in a parameter. -/
def versioned : Contract where
  root := [
    ("openapi", .string "3.0.3"),
    ("paths", .object [
      ("/a", .object [("get", .object [("responses", .object [])])]),
      ("/a-b;v=1", .object [("get", .object [("responses", .object [])])])])]
  version := "3.0.3"

/-- The routes of the contract. -/
def versionedRoutes : List Route := versioned.routes.toOption.getD []

/-- The keys of the two tell them apart. -/
theorem keys_tell_routes_versioned :
    versioned.routes = .ok versionedRoutes ∧
      ∀ r ∈ versionedRoutes, ∀ r' ∈ versionedRoutes, ∀ header header' : Option String,
        (StoreKey.ofHeader r header).render = (StoreKey.ofHeader r' header').render →
          r.method = r'.method ∧ r.template = r'.template := by
  refine ⟨rfl, (Contract.keys_tell_routes_iff (c := versioned) rfl).mpr ?_⟩
  have hbegins : ∀ r ∈ versionedRoutes, ∀ r' ∈ versionedRoutes, ∀ rest,
      strip? (r.template.toList ++ ['-']) r'.template.toList = some rest →
        ¬ ContentType.Begins rest := by decide +kernel
  intro r hr r' hr' _ rest htemplate
  exact hbegins r hr r' hr' rest (strip?_eq_some_iff.mpr (by simp [htemplate]))

/-- A header of `GET /a` and one of `GET /a-b` have one key. -/
theorem keys_do_not_tell_routes :
    ∃ r r' : Route, hyphenated.routes = .ok [r, r'] ∧ r.template ≠ r'.template ∧
      (StoreKey.ofHeader r (some "b-c")).render = (StoreKey.ofHeader r' (some "c")).render := by
  refine ⟨_, _, rfl, by decide, by decide⟩

end ApiContract
