import ApiContract.Route.Template
import Mathlib.Data.List.TakeWhile
/-!
# Matching a template is filling its placeholders

A template is read from the left: what stands in the first brace that is closed is a placeholder. A
path matches exactly if it is the template with something other than slashes in the place of each
placeholder, with one slash more behind it or none. Where no segment has two placeholders, there is
one way to fill them, and that is the one that is found.
-/

namespace ApiContract

namespace Template

/-! ## Reading a template -/

/-- Whether a brace is closed in a text. -/
def HasPlaceholder (text : List Char) : Prop :=
  ∃ front name rest, text = front ++ '\x7b' :: (name ++ '\x7d' :: rest)

/-- Whether parts are those of a template: the first brace that is closed begins a placeholder,
which ends where the brace is closed first, and all else is literal. -/
inductive Reads : List Char → List TemplatePart → Prop
  | literal {text : List Char} (h : ¬ HasPlaceholder text) : Reads text (text.map .literal)
  | placeholder {front name rest : List Char} {ps : List TemplatePart} (hfront : '\x7b' ∉ front)
    (hname : '\x7d' ∉ name) (h : Reads rest ps) :
    Reads (front ++ '\x7b' :: (name ++ '\x7d' :: rest))
      (front.map .literal ++ .placeholder (String.ofList name) :: ps)

theorem hasPlaceholder_cons {c : Char} {cs : List Char} :
    HasPlaceholder (c :: cs) ↔ (c = '\x7b' ∧ '\x7d' ∈ cs) ∨ HasPlaceholder cs := by
  constructor
  · rintro ⟨front, name, rest, h⟩
    cases front with
    | nil =>
      obtain ⟨rfl, rfl⟩ := List.cons.inj h
      exact Or.inl ⟨rfl, by simp⟩
    | cons d front => exact Or.inr ⟨front, name, rest, (List.cons.inj h).2⟩
  · rintro (⟨rfl, h⟩ | ⟨front, name, rest, rfl⟩)
    · obtain ⟨name, rest, rfl⟩ := List.append_of_mem h
      exact ⟨[], name, rest, rfl⟩
    · exact ⟨c :: front, name, rest, rfl⟩

theorem parts_cons_of_brace {cs : List Char} (h : '\x7d' ∈ cs) :
    parts ('\x7b' :: cs) = partsInside [] cs := by
  rw [parts, if_pos (by simpa using h)]

theorem parts_cons_of_not {c : Char} {cs : List Char} (h : ¬ (c = '\x7b' ∧ '\x7d' ∈ cs)) :
    parts (c :: cs) = .literal c :: parts cs := by
  rw [parts, if_neg (by simpa using h)]

/-- A name ends where its brace is closed. -/
theorem partsInside_append {name : List Char} (h : '\x7d' ∉ name) (rev rest : List Char) :
    partsInside rev (name ++ '\x7d' :: rest) =
      .placeholder (String.ofList (rev.reverse ++ name)) :: parts rest := by
  induction name generalizing rev with
  | nil => rw [List.nil_append, partsInside, if_pos rfl, List.append_nil]
  | cons c name ih =>
    rw [List.mem_cons, not_or] at h
    rw [List.cons_append, partsInside, if_neg (Ne.symm h.1), ih h.2, List.reverse_cons,
      List.append_assoc, List.singleton_append]

theorem Reads.parts_eq {cs : List Char} {ps : List TemplatePart} (h : Reads cs ps) :
    parts cs = ps := by
  induction h with
  | @literal text h =>
    induction text with
    | nil => rw [parts, List.map_nil]
    | cons c cs ih =>
      rw [hasPlaceholder_cons, not_or] at h
      rw [parts_cons_of_not h.1, ih h.2, List.map_cons]
  | @placeholder front name rest ps hfront hname _ ih =>
    induction front with
    | nil =>
      rw [List.nil_append, parts_cons_of_brace (by simp), partsInside_append hname, ih]
      rfl
    | cons c front ih' =>
      rw [List.mem_cons, not_or] at hfront
      rw [List.cons_append, parts_cons_of_not fun hc => hfront.1 hc.1.symm, ih' hfront.2]
      rfl

/-- A character that begins no placeholder is literal. -/
theorem Reads.cons {c : Char} {cs : List Char} {ps : List TemplatePart}
    (hc : ¬ (c = '\x7b' ∧ '\x7d' ∈ cs)) (h : Reads cs ps) : Reads (c :: cs) (.literal c :: ps) := by
  cases h with
  | literal h => exact @Reads.literal (c :: cs) fun hc' => (hasPlaceholder_cons.mp hc').elim hc h
  | @placeholder front name rest ps hfront hname h =>
    have hne : c ≠ '\x7b' := fun heq => hc ⟨heq, by simp⟩
    exact @Reads.placeholder (c :: front) name rest ps (by simp [hfront, hne.symm]) hname h

theorem reads_parts (cs : List Char) : Reads cs (parts cs) := by
  match cs with
  | [] => exact @Reads.literal [] fun ⟨front, _, _, h⟩ => by cases front <;> cases h
  | c :: cs =>
    by_cases hc : c = '\x7b' ∧ '\x7d' ∈ cs
    · obtain ⟨rfl, hmem⟩ := hc
      obtain ⟨name, rest, rfl, hname⟩ := List.eq_append_cons_of_mem hmem
      rw [parts_cons_of_brace hmem, partsInside_append hname]
      exact @Reads.placeholder [] name rest _ List.not_mem_nil hname (reads_parts rest)
    · rw [parts_cons_of_not hc]
      exact (reads_parts cs).cons hc
termination_by cs.length
decreasing_by
  · subst_vars
    simp only [List.length_cons, List.length_append]
    omega
  · simp

/-! ## Filling -/

/-- The text of parts with fillers in the place of their placeholders. -/
def filled : List TemplatePart → List (List Char) → List Char
  | [], _ => []
  | .literal c :: ps, fillers => c :: filled ps fillers
  | .placeholder _ :: ps, [] => filled ps []
  | .placeholder _ :: ps, filler :: fillers => filler ++ filled ps fillers

/-- Whether a text can stand for a placeholder. -/
structure IsFiller (cs : List Char) : Prop where
  ne_nil : cs ≠ []
  notMem : '/' ∉ cs

/-- Whether a path is made from parts by filling their placeholders, with one slash more or none. -/
structure Fits (ps : List TemplatePart) (fillers : List (List Char)) (path : List Char) : Prop where
  length : fillers.length = (placeholders ps).length
  isFiller : ∀ filler ∈ fillers, IsFiller filler
  path : path = filled ps fillers ∨ path = filled ps fillers ++ ['/']

variable {ps : List TemplatePart} {fillers : List (List Char)} {path : List Char}

theorem fits_nil_iff : Fits [] fillers path ↔ fillers = [] ∧ (path = [] ∨ path = ['/']) := by
  constructor
  · rintro ⟨hlength, -, hpath⟩
    exact ⟨List.eq_nil_of_length_eq_zero hlength, hpath⟩
  · rintro ⟨rfl, hpath⟩
    exact ⟨rfl, by simp, hpath⟩

theorem fits_literal_iff {c : Char} :
    Fits (.literal c :: ps) fillers path ↔ ∃ rest, path = c :: rest ∧ Fits ps fillers rest := by
  constructor
  · rintro ⟨hlength, hfillers, hpath⟩
    rcases hpath with rfl | rfl
    · exact ⟨_, rfl, hlength, hfillers, Or.inl rfl⟩
    · exact ⟨_, rfl, hlength, hfillers, Or.inr rfl⟩
  · rintro ⟨rest, rfl, hlength, hfillers, hpath⟩
    refine ⟨hlength, hfillers, ?_⟩
    rcases hpath with rfl | rfl
    · exact Or.inl rfl
    · exact Or.inr rfl

theorem fits_placeholder_iff {name : String} :
    Fits (.placeholder name :: ps) fillers path ↔
      ∃ filler fillers' rest, fillers = filler :: fillers' ∧ path = filler ++ rest ∧
        IsFiller filler ∧ Fits ps fillers' rest := by
  constructor
  · rintro ⟨hlength, hfillers, hpath⟩
    cases fillers with
    | nil => cases hlength
    | cons filler fillers =>
      obtain ⟨hfiller, hfillers⟩ := List.forall_mem_cons.mp hfillers
      have hlength := Nat.succ.inj hlength
      rcases hpath with rfl | rfl
      · exact ⟨filler, fillers, _, rfl, rfl, hfiller, hlength, hfillers, Or.inl rfl⟩
      · exact ⟨filler, fillers, _, rfl, List.append_assoc _ _ _, hfiller, hlength, hfillers,
          Or.inr rfl⟩
  · rintro ⟨filler, fillers, rest, rfl, rfl, hfiller, hlength, hfillers, hpath⟩
    refine ⟨congrArg Nat.succ hlength, List.forall_mem_cons.mpr ⟨hfiller, hfillers⟩, ?_⟩
    rcases hpath with rfl | rfl
    · exact Or.inl rfl
    · exact Or.inr (List.append_assoc _ _ _).symm

/-! ## Matching -/

theorem fillMost_cases (rest : List Char → Option (List (List Char))) (cs : List Char) (n : Nat) :
    (fillMost rest cs n = none ∧ ∀ k, 1 ≤ k → k ≤ n → rest (cs.drop k) = none) ∨
      ∃ k fillers, 1 ≤ k ∧ k ≤ n ∧ rest (cs.drop k) = some fillers ∧
        fillMost rest cs n = some (cs.take k :: fillers) := by
  induction n with
  | zero => exact Or.inl ⟨rfl, by omega⟩
  | succ n ih =>
    unfold fillMost
    cases hrest : rest (cs.drop (n + 1)) with
    | some fillers => exact Or.inr ⟨n + 1, fillers, by omega, by omega, hrest, rfl⟩
    | none =>
      rcases ih with ⟨hnone, hall⟩ | ⟨k, fillers, hk, hkn, hsome, hfill⟩
      · refine Or.inl ⟨hnone, fun k hk hkn => ?_⟩
        rcases Nat.lt_or_eq_of_le hkn with hlt | rfl
        · exact hall k hk (by omega)
        · exact hrest
      · exact Or.inr ⟨k, fillers, hk, by omega, hsome, hfill⟩

theorem takeWhile_append_of_not_mem {filler : List Char} (h : '/' ∉ filler) (rest : List Char) :
    (filler ++ rest).takeWhile (· ≠ '/') = filler ++ rest.takeWhile (· ≠ '/') := by
  refine List.takeWhile_append_of_pos fun c hc => ?_
  simpa using fun heq : c = '/' => h (heq ▸ hc)

/-- The texts that a path begins with and that can stand for a placeholder. -/
theorem isFiller_iff_length (filler rest : List Char) :
    IsFiller filler ↔
      1 ≤ filler.length ∧ filler.length ≤ ((filler ++ rest).takeWhile (· ≠ '/')).length := by
  constructor
  · rintro ⟨hne, hslash⟩
    refine ⟨List.length_pos_iff.mpr hne, ?_⟩
    rw [takeWhile_append_of_not_mem hslash, List.length_append]
    omega
  · rintro ⟨hpos, hle⟩
    refine ⟨List.length_pos_iff.mp hpos, fun hmem => ?_⟩
    have hfront : filler <+: (filler ++ rest).takeWhile (· ≠ '/') :=
      List.prefix_of_prefix_length_le (List.prefix_append _ _) (List.takeWhile_prefix _) hle
    simpa using List.mem_takeWhile_imp (hfront.mem hmem)

/-- What is found fits. -/
theorem fits_of_fill? (h : fill? ps path = some fillers) : Fits ps fillers path := by
  induction ps generalizing path fillers with
  | nil =>
    unfold fill? at h
    split at h
    · next hpath =>
      obtain rfl := Option.some.inj h
      exact fits_nil_iff.mpr ⟨rfl, by simpa using hpath⟩
    · cases h
  | cons part ps ih =>
    cases part with
    | literal c =>
      cases path with
      | nil => cases h
      | cons d path =>
        unfold fill? at h
        split at h
        · next hc => exact fits_literal_iff.mpr ⟨path, by rw [hc], ih h⟩
        · cases h
    | placeholder name =>
      unfold fill? at h
      rcases fillMost_cases (fill? ps) path (path.takeWhile (· ≠ '/')).length with
        ⟨hnone, -⟩ | ⟨k, fillers', hk, hkn, hrest, hfill⟩
      · rw [hnone] at h
        cases h
      · obtain rfl := Option.some.inj (hfill.symm.trans h)
        refine fits_placeholder_iff.mpr ⟨_, fillers', path.drop k, rfl,
          (List.take_append_drop k path).symm, ?_, ih hrest⟩
        have hle := (List.takeWhile_prefix (· ≠ '/') (l := path)).length_le
        rw [isFiller_iff_length _ (path.drop k), List.take_append_drop, List.length_take]
        omega

/-- Something is found where something fits. -/
theorem Fits.isSome_fill? (h : Fits ps fillers path) : (fill? ps path).isSome = true := by
  induction ps generalizing path fillers with
  | nil =>
    obtain ⟨-, hpath⟩ := fits_nil_iff.mp h
    rw [fill?, if_pos (by simpa using hpath)]
    rfl
  | cons part ps ih =>
    cases part with
    | literal c =>
      obtain ⟨rest, rfl, hrest⟩ := fits_literal_iff.mp h
      rw [fill?, if_pos rfl]
      exact ih hrest
    | placeholder name =>
      obtain ⟨filler, fillers', rest, -, rfl, hfiller, hrest⟩ := fits_placeholder_iff.mp h
      have hsome := ih hrest
      rw [isFiller_iff_length _ rest] at hfiller
      rw [fill?]
      rcases fillMost_cases (fill? ps) (filler ++ rest)
        ((filler ++ rest).takeWhile (· ≠ '/')).length with
        ⟨-, hall⟩ | ⟨k, fillers'', -, -, -, hfill⟩
      · have hnone := hall filler.length hfiller.1 hfiller.2
        rw [List.drop_left] at hnone
        rw [hnone] at hsome
        cases hsome
      · rw [hfill]
        rfl

/-- **A path matches exactly if it is the template with its placeholders filled.** -/
theorem isSome_fill?_iff : (fill? ps path).isSome = true ↔ ∃ fillers, Fits ps fillers path := by
  refine ⟨fun h => ?_, fun ⟨fillers, h⟩ => h.isSome_fill?⟩
  obtain ⟨fillers, hfill⟩ := Option.isSome_iff_exists.mp h
  exact ⟨fillers, fits_of_fill? hfill⟩

/-! ## One placeholder in a segment -/

/-- Whether no segment of a template has two placeholders. -/
def OnePerSegment (ps : List TemplatePart) : Prop :=
  ∀ segment ∈ ps.splitOn (.literal '/'), (placeholders segment).length ≤ 1

instance (ps : List TemplatePart) : Decidable (OnePerSegment ps) :=
  inferInstanceAs
    (Decidable (∀ segment ∈ ps.splitOn (.literal '/'), (placeholders segment).length ≤ 1))

theorem splitOn_cons_of_ne {part : TemplatePart} (h : part ≠ .literal '/')
    {segment : List TemplatePart} {segments : List (List TemplatePart)}
    (hsplit : ps.splitOn (.literal '/') = segment :: segments) :
    (part :: ps).splitOn (.literal '/') = (part :: segment) :: segments := by
  rw [List.splitOn_cons_eq_if_modifyHead, if_neg (by simpa using h), hsplit]
  rfl

theorem splitOn_cons_slash :
    (.literal '/' :: ps).splitOn (.literal '/') = [] :: ps.splitOn (.literal '/') := by
  rw [List.splitOn_cons_eq_if_modifyHead, if_pos (by simp)]

theorem OnePerSegment.of_cons {part : TemplatePart} (h : OnePerSegment (part :: ps)) :
    OnePerSegment ps := by
  intro segment hsegment
  by_cases hpart : part = .literal '/'
  · subst hpart
    exact h segment (by rw [splitOn_cons_slash]; exact List.mem_cons_of_mem _ hsegment)
  · obtain ⟨first, segments, hsplit⟩ :=
      List.exists_cons_of_ne_nil (List.splitOn_ne_nil (.literal '/') ps)
    unfold OnePerSegment at h
    rw [splitOn_cons_of_ne hpart hsplit] at h
    obtain ⟨hfirst, hrest⟩ := List.forall_mem_cons.mp h
    rw [hsplit] at hsegment
    rcases List.mem_cons.mp hsegment with rfl | hsegment
    · exact (((List.sublist_cons_self part segment).filterMap _).length_le).trans hfirst
    · exact hrest segment hsegment

/-- Where the first segment has no placeholder, the path begins with its text. -/
theorem takeWhile_filled {segment : List TemplatePart} {segments : List (List TemplatePart)}
    (hsplit : ps.splitOn (.literal '/') = segment :: segments) (hnone : placeholders segment = [])
    (h : Fits ps fillers path) : path.takeWhile (· ≠ '/') = filled segment [] := by
  induction ps generalizing segment segments path with
  | nil =>
    obtain ⟨-, hpath⟩ := fits_nil_iff.mp h
    obtain ⟨rfl, -⟩ := List.cons.inj (hsplit : [[]] = _)
    rcases hpath with rfl | rfl <;> rfl
  | cons part ps ih =>
    obtain ⟨first, segments', hfirst⟩ :=
      List.exists_cons_of_ne_nil (List.splitOn_ne_nil (.literal '/') ps)
    cases part with
    | literal c =>
      obtain ⟨rest, rfl, hrest⟩ := fits_literal_iff.mp h
      by_cases hc : c = '/'
      · subst hc
        rw [splitOn_cons_slash] at hsplit
        obtain ⟨rfl, -⟩ := List.cons.inj hsplit
        rfl
      · rw [splitOn_cons_of_ne (by simpa using hc) hfirst] at hsplit
        obtain ⟨rfl, -⟩ := List.cons.inj hsplit
        rw [List.takeWhile_cons_of_pos (by simpa using hc), ih hfirst hnone hrest]
        rfl
    | placeholder name =>
      have hne : TemplatePart.placeholder name ≠ .literal '/' := nofun
      rw [splitOn_cons_of_ne hne hfirst] at hsplit
      obtain ⟨rfl, -⟩ := List.cons.inj hsplit
      cases hnone

/-- **There is one way to fill a template** that has at most one placeholder in a segment. -/
theorem Fits.unique {fillers' : List (List Char)} (hone : OnePerSegment ps)
    (h : Fits ps fillers path) (h' : Fits ps fillers' path) : fillers = fillers' := by
  induction ps generalizing path fillers fillers' with
  | nil => rw [(fits_nil_iff.mp h).1, (fits_nil_iff.mp h').1]
  | cons part ps ih =>
    cases part with
    | literal c =>
      obtain ⟨rest, rfl, hrest⟩ := fits_literal_iff.mp h
      obtain ⟨rest', hpath, hrest'⟩ := fits_literal_iff.mp h'
      obtain ⟨-, rfl⟩ := List.cons.inj hpath
      exact ih hone.of_cons hrest hrest'
    | placeholder name =>
      -- both fillers end where the text of the segment goes on, up to its slash
      obtain ⟨segment, segments, hsplit⟩ :=
        List.exists_cons_of_ne_nil (List.splitOn_ne_nil (.literal '/') ps)
      have hne : TemplatePart.placeholder name ≠ .literal '/' := nofun
      have hnone : placeholders segment = [] := by
        have hle := hone (.placeholder name :: segment)
          (by rw [splitOn_cons_of_ne hne hsplit]; exact List.mem_cons_self)
        exact List.eq_nil_of_length_eq_zero (Nat.le_zero.mp (Nat.le_of_succ_le_succ hle))
      have hend : ∀ {filler rest fillers}, IsFiller filler → Fits ps fillers rest →
          (filler ++ rest).takeWhile (· ≠ '/') = filler ++ filled segment [] := by
        intro filler rest fillers hfiller hrest
        rw [takeWhile_append_of_not_mem hfiller.notMem, takeWhile_filled hsplit hnone hrest]
      obtain ⟨filler, fillers, rest, rfl, rfl, hfiller, hrest⟩ := fits_placeholder_iff.mp h
      obtain ⟨filler', fillers', rest', rfl, hpath, hfiller', hrest'⟩ := fits_placeholder_iff.mp h'
      have hsame := hend hfiller hrest
      rw [hpath, hend hfiller' hrest'] at hsame
      obtain rfl := List.append_cancel_right hsame
      obtain rfl := List.append_cancel_left hpath
      rw [ih hone.of_cons hrest hrest']

/-- So what is found is what fits. -/
theorem fill?_eq_some_iff (hone : OnePerSegment ps) :
    fill? ps path = some fillers ↔ Fits ps fillers path := by
  refine ⟨fits_of_fill?, fun h => ?_⟩
  obtain ⟨fillers', hfill⟩ := Option.isSome_iff_exists.mp h.isSome_fill?
  rw [hfill, (fits_of_fill? hfill).unique hone h]

end Template

end ApiContract
