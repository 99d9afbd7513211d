import ApiContract.Proofs.Route.Captures
import ApiContract.Proofs.Route.Operations
import ApiContract.Proofs.Text.ByteOrder
import Mathlib.Data.List.DropRight
/-!
# The path in front of every route

The routes of a contract stand behind the path of its first server. Such a path is empty or begins with
a slash, unless the address has a scheme that is not known and no slash behind it: then what follows the
scheme is all one text, and no route behind it begins with a slash.
-/

namespace ApiContract

/-- Whether a text begins with a slash. -/
def Rooted (s : String) : Prop := s.toList.head? = some '/'

/-- Whether a text can stand in front of a path: it is empty, or begins with a slash and does not end
with one. -/
def IsBase (base : String) : Prop := base = "" ∨ Rooted base ∧ base.toList.getLast? ≠ some '/'

instance (s : String) : Decidable (Rooted s) := inferInstanceAs (Decidable (_ = _))

instance (base : String) : Decidable (IsBase base) := inferInstanceAs (Decidable (_ ∨ _))

/-- What can stand in front of a path that begins with a slash leaves it one that does. -/
theorem IsBase.rooted_append {base path : String} (hbase : IsBase base) (hpath : Rooted path) :
    Rooted (base ++ path) := by
  rcases hbase with rfl | ⟨hbase, -⟩
  · simpa [Rooted] using hpath
  · rw [Rooted, String.toList_append, List.head?_append, hbase]
    rfl

namespace ServerUrl

/-! ## Addresses -/

/-- Whether an address has a scheme that is not known, and behind it something that is no slash and
begins no query and no fragment. -/
def IsOpaque (url : List Char) : Prop :=
  ∃ name c rest, splitScheme? (cleaned url) = some (name, c :: rest) ∧
    Scheme.ofName name = .other ∧ c ≠ '/' ∧ c ≠ '?' ∧ c ≠ '#'

/-- Whether a path begins with a slash, if with anything. -/
def Slashed (path : List Char) : Prop := ∀ c ∈ path.head?, c = '/'

theorem slashed_pathOf (scheme : Scheme) (cs : List Char) : Slashed (pathOf scheme cs) := by
  unfold pathOf
  simp only
  generalize walk scheme [] _ = segments
  split
  · simp [Slashed]
  · cases segments <;> simp [Slashed]

theorem slashed_of_behindAuthority? {scheme : Scheme} {cs path : List Char}
    (h : behindAuthority? scheme cs = some path) : Slashed path := by
  unfold behindAuthority? at h
  simp only at h
  split at h
  · split at h
    · split at h
      · exact Option.some.inj h ▸ slashed_pathOf _ _
      · split at h
        · exact Option.some.inj h ▸ nofun
        · exact Option.some.inj h ▸ slashed_pathOf _ _
    · split at h
      · exact Option.some.inj h ▸ nofun
      · exact Option.some.inj h ▸ by simp [Slashed]
  · cases h

theorem slashed_of_filePath? {cs path : List Char} (h : filePath? cs = some path) :
    Slashed path := by
  unfold filePath? at h
  simp only at h
  split at h
  · split at h
    · split at h
      · exact Option.some.inj h ▸ slashed_pathOf _ _
      · split at h
        · exact Option.some.inj h ▸ slashed_pathOf _ _
        · cases h
    · split at h
      · exact Option.some.inj h ▸ slashed_pathOf _ _
      · exact Option.some.inj h ▸ slashed_pathOf _ _
  · exact Option.some.inj h ▸ slashed_pathOf _ _
  · exact Option.some.inj h ▸ by simp [Slashed]

/-- What a character is written as begins with the character, or with a percent sign. -/
theorem exists_encodeChar (escape : Char → Bool) (c : Char) :
    ∃ d rest, Percent.encodeChar escape c = d :: rest ∧ (d = c ∨ d = '%') := by
  unfold Percent.encodeChar
  split
  · obtain ⟨b, bs, hbytes⟩ := List.exists_cons_of_ne_nil (Utf8.encodeChar_ne_nil c)
    rw [hbytes]
    exact ⟨'%', _, rfl, Or.inr rfl⟩
  · exact ⟨c, [], rfl, Or.inl rfl⟩

/-- A query takes no part in a path. -/
theorem untilQuery_of_head {cs : List Char} (h : ∀ c ∈ cs.head?, c = '?' ∨ c = '#') :
    untilQuery cs = [] := by
  cases cs with
  | nil => rfl
  | cons c cs =>
    rw [untilQuery, Text.before, List.takeWhile_cons_of_neg]
    simpa [or_iff_not_imp_left] using h c rfl

/-- The path of an address that is not opaque begins with a slash, if with anything. -/
theorem slashed_of_read? {url path : List Char} (hkind : ¬ IsOpaque url)
    (h : read? url = some path) : Slashed path := by
  obtain ⟨⟨name, rest⟩, hscheme, h⟩ := Option.bind_eq_some_iff.mp h
  simp only at h
  split at h
  · exact slashed_of_behindAuthority? h
  · exact slashed_of_filePath? h
  · next hother =>
    split at h
    · exact slashed_of_behindAuthority? h
    · exact Option.some.inj h ▸ slashed_pathOf _ _
    · next hslash =>
      have hquery : ∀ c ∈ rest.head?, c = '?' ∨ c = '#' := by
        intro c hc
        obtain ⟨more, rfl⟩ := List.head?_eq_some_iff.mp hc
        by_contra hno
        rw [not_or] at hno
        exact hkind ⟨name, c, more, hscheme, hother, fun heq => hslash more (heq ▸ rfl), hno⟩
      rw [untilQuery_of_head hquery] at h
      exact Option.some.inj h ▸ nofun

/-- The path of an opaque address begins with no slash. -/
theorem exists_read?_of_isOpaque {url : List Char} (h : IsOpaque url) :
    ∃ c rest, read? url = some (c :: rest) ∧ c ≠ '/' := by
  obtain ⟨name, c, more, hscheme, hother, hslash, hquery⟩ := h
  obtain ⟨d, ds, hencoded, hd⟩ := exists_encodeChar isEscapedInOpaque c
  have hpath : untilQuery (c :: more) = c :: untilQuery more := by
    rw [untilQuery, Text.before, List.takeWhile_cons_of_pos (by simpa using hquery)]
    rfl
  refine ⟨d, ds ++ (untilQuery more).flatMap (Percent.encodeChar isEscapedInOpaque), ?_, ?_⟩
  · unfold read?
    rw [hscheme, Option.bind_eq_bind, Option.bind_some]
    simp only [hother]
    split
    · next heq => exact absurd (List.cons.inj heq).1 hslash
    · next heq => exact absurd (List.cons.inj heq).1 hslash
    · rw [hpath, List.flatMap_cons, hencoded, List.cons_append]
  · rintro rfl
    rcases hd with hd | hd
    · exact hslash hd.symm
    · cases hd

/-- Blanks are only taken off behind the name of a server. -/
theorem exists_cleaned_named (url : List Char) :
    ∃ rest, cleaned ("http://dummy".toList ++ url) = "http://dummy".toList ++ rest := by
  have hfront : "http://dummy".toList ++ url = "http://dumm".toList ++ 'y' :: url := rfl
  unfold cleaned
  simp only
  rw [hfront, Text.dropWhile_append_cons _ (by decide), Text.dropEnd_append_cons _ (by decide),
    List.filter_append, List.filter_cons_of_pos (by decide)]
  exact ⟨_, rfl⟩

/-- An address behind the name of a server has a scheme that is known. -/
theorem not_isOpaque_named (url : List Char) : ¬ IsOpaque ("http://dummy".toList ++ url) := by
  rintro ⟨name, c, more, hscheme, hother, -⟩
  obtain ⟨rest, hcleaned⟩ := exists_cleaned_named url
  have hhttp : splitScheme? ("http://dummy".toList ++ rest) =
      some ("http", "//dummy".toList ++ rest) := rfl
  rw [hcleaned, hhttp] at hscheme
  obtain rfl : "http" = name := congrArg Prod.fst (Option.some.inj hscheme)
  cases hother

/-- **The path of an address begins with a slash, if with anything, exactly if the address is not
opaque.** -/
theorem slashed_path?_iff {url path : List Char} (h : path? url = some path) :
    Slashed path ↔ ¬ IsOpaque url := by
  unfold path? at h
  constructor
  · rintro hslashed hkind
    obtain ⟨c, rest, hread, hc⟩ := exists_read?_of_isOpaque hkind
    rw [hread] at h
    obtain rfl := Option.some.inj h
    exact hc (hslashed c rfl)
  · intro hkind
    split at h
    · next hread => exact Option.some.inj h ▸ slashed_of_read? hkind hread
    · exact slashed_of_read? (not_isOpaque_named url) h

end ServerUrl

/-! ## Templates -/

namespace Template

/-- Every template is matched by a path that has no other mark of a query or a fragment than the
template. -/
theorem exists_isSome_fill? (ps : List TemplatePart) :
    ∃ fillers, (fill? ps (filled ps fillers)).isSome = true ∧
      ∀ c, c = '?' ∨ c = '#' → c ∈ filled ps fillers → .literal c ∈ ps := by
  let fillers := List.replicate (placeholders ps).length ['x']
  have hfiller : ∀ filler ∈ fillers, filler = ['x'] := fun _ h => List.eq_of_mem_replicate h
  have hfits : Fits ps fillers (filled ps fillers) := by
    refine ⟨List.length_replicate, fun filler h => ?_, Or.inl rfl⟩
    rw [hfiller filler h]
    exact ⟨by simp, by decide⟩
  refine ⟨fillers, hfits.isSome_fill?, fun c hc hmem => (mem_filled hmem).resolve_right ?_⟩
  rintro ⟨filler, h, hx⟩
  rw [hfiller filler h, List.mem_singleton] at hx
  subst hx
  revert hc
  decide

end Template

/-- Whether a path that begins with a slash matches a template. Where the template has no marks of a
query or a fragment, the path has none. -/
def Reachable (template : String) : Prop :=
  ∃ path, Rooted path ∧ ((PathPattern.ofTemplate template).fill? path.toList).isSome = true ∧
    ∀ c, c = '?' ∨ c = '#' → c ∈ path.toList →
      .literal c ∈ Template.parts (Text.dropEnd (· = '/') template.toList)

/-- **What begins with a slash can be reached.** -/
theorem Rooted.reachable {template : String} (h : Rooted template) : Reachable template := by
  have hslash : ∀ {P : Char → Prop} (c : Char), c = '?' ∨ c = '#' → c ∈ "/".toList → P c := by
    rintro P c (rfl | rfl) hc <;> exact absurd hc (by decide)
  unfold Reachable PathPattern.ofTemplate
  split
  · exact ⟨"/", rfl, rfl, hslash⟩
  · obtain ⟨rest, hrest⟩ := List.head?_eq_some_iff.mp h
    obtain ⟨behind, htext⟩ : Text.dropEnd (· = '/') template.toList <+: template.toList :=
      List.rdropWhile_prefix _ _
    cases hcs : Text.dropEnd (· = '/') template.toList with
    | nil => exact ⟨"/", rfl, rfl, hslash⟩
    | cons c cs =>
      rw [hcs, hrest] at htext
      obtain rfl : c = '/' := (List.cons.inj htext).1
      have hparts : Template.parts ('/' :: cs) = .literal '/' :: Template.parts cs :=
        Template.parts_cons_of_not fun hbrace => absurd hbrace.1 (by decide)
      obtain ⟨fillers, hfill, hmarks⟩ := Template.exists_isSome_fill? (Template.parts ('/' :: cs))
      refine ⟨String.ofList (Template.filled (Template.parts ('/' :: cs)) fillers), ?_, ?_, ?_⟩
      · rw [Rooted, String.toList_ofList, hparts]
        rfl
      · rwa [String.toList_ofList]
      · rwa [String.toList_ofList]

namespace Contract

/-! ## The path in front -/

/-- A path without the slashes at its end can stand in front of others exactly if it begins with a
slash, if with anything. -/
theorem isBase_ofList_dropEnd_iff (path : List Char) :
    IsBase (String.ofList (Text.dropEnd (· = '/') path)) ↔ ServerUrl.Slashed path := by
  by_cases hempty : Text.dropEnd (· = '/') path = []
  · have hall : ∀ c ∈ path, c = '/' := by simpa using List.rdropWhile_eq_nil_iff.mp hempty
    rw [hempty]
    exact iff_of_true (Or.inl rfl) fun c hc => hall c (List.mem_of_mem_head? hc)
  · have hlast : (Text.dropEnd (· = '/') path).getLast? ≠ some '/' := by
      intro hlast
      rw [List.getLast?_eq_some_getLast hempty, Option.some.injEq] at hlast
      exact List.rdropWhile_last_not _ path hempty (decide_eq_true hlast)
    obtain ⟨behind, hpath⟩ : Text.dropEnd (· = '/') path <+: path := List.rdropWhile_prefix _ _
    obtain ⟨c, cs, hcs⟩ := List.exists_cons_of_ne_nil hempty
    rw [hcs] at hlast hpath ⊢
    have hslashed : ServerUrl.Slashed path ↔ c = '/' := by
      rw [← hpath]
      simp [ServerUrl.Slashed]
    rw [hslashed]
    constructor
    · rintro (h | ⟨h, -⟩)
      · cases String.ofList_eq_empty_iff.mp h
      · simpa [Rooted] using h
    · rintro rfl
      exact Or.inr ⟨by simp [Rooted], by simpa using hlast⟩

/-- **The path of the first server can stand in front of others exactly if its address is not
opaque.** -/
theorem isBase_basePath_iff (c : Contract) :
    IsBase c.basePath ↔ ∀ url, c.serverUrl? = some url → ¬ ServerUrl.IsOpaque url.toList := by
  cases hurl : c.serverUrl? with
  | none =>
    have hbase : c.basePath = "" := by simp [basePath, hurl]
    exact iff_of_true (Or.inl hbase) nofun
  | some url =>
    have hall : (∀ u, some url = some u → ¬ ServerUrl.IsOpaque u.toList) ↔
        ¬ ServerUrl.IsOpaque url.toList := by simp
    rw [hall]
    cases hpath : ServerUrl.path? url.toList with
    | some path =>
      have hbase : c.basePath = String.ofList (Text.dropEnd (· = '/') path) := by
        simp [basePath, hurl, hpath]
      rw [hbase, ← ServerUrl.slashed_path?_iff hpath, isBase_ofList_dropEnd_iff]
    | none =>
      have hbase : c.basePath = "" := by simp [basePath, hurl, hpath]
      refine iff_of_true (Or.inl hbase) fun hkind => ?_
      obtain ⟨d, rest, hread, -⟩ := ServerUrl.exists_read?_of_isOpaque hkind
      rw [ServerUrl.path?, hread] at hpath
      cases hpath

/--
**The base path is a usable prefix exactly if the address of the first server is not opaque.** Then
every route that is made of a path beginning with a slash begins with a slash, and a path that does
matches it.
-/
theorem basePath_usable_iff (c : Contract) :
    (IsBase c.basePath ∧ ∀ routes, c.routes = .ok routes → ∀ r ∈ routes,
      ∃ o : Operation, o.StandsIn c ∧ o.route c = r ∧
        (Rooted o.path → Rooted r.template ∧ Reachable r.template)) ↔
      ∀ url, c.serverUrl? = some url → ¬ ServerUrl.IsOpaque url.toList := by
  rw [← isBase_basePath_iff]
  refine ⟨And.left, fun hbase => ⟨hbase, fun routes hroutes r hr => ?_⟩⟩
  obtain ⟨o, hstands, rfl⟩ := (mem_routes_iff hroutes).mp hr
  refine ⟨o, hstands, rfl, fun hpath => ?_⟩
  have hrooted : Rooted (o.route c).template := hbase.rooted_append hpath
  exact ⟨hrooted, hrooted.reachable⟩

/-! ## A host and a port -/

/-- A contract with one operation, behind a host and a port without a scheme: the host is read as the
scheme. -/
def unschemed : Contract where
  root := [
    ("openapi", .string "3.0.3"),
    ("paths", .object [("/a", .object [("get", .object [("responses", .object [])])])]),
    ("servers", .array [.object [("url", .string "localhost:8080")]])]
  version := "3.0.3"

/-- The port is taken for a path, and stands without a slash in front of every other. -/
theorem not_isBase_basePath :
    unschemed.basePath = "8080" ∧ ¬ IsBase unschemed.basePath ∧
      unschemed.routes.map (·.map Route.template) = .ok ["8080/a"] ∧ ¬ Rooted "8080/a" := by
  decide

end Contract

end ApiContract
