import ApiContract.Pattern.Reader
import ApiContract.Proofs.Pattern.Ends
import ApiContract.Proofs.Route.Filling
import ApiContract.Route.Expression
/-!
# What the expression of a template matches

The expression is read as a pattern, part by part: a character that was escaped stands for itself, and a
group for some characters other than a slash. It matches a path exactly where the placeholders of the
template can be filled.
-/

namespace ApiContract

open Pattern

/-! ## Reading the expression -/

/-- What a part of a template is read as. -/
def TemplatePart.pattern : TemplatePart → Pattern
  | .literal c => .one (.single c) false
  | .placeholder _ => .seq .empty (.rep (.one (.compl (.union .none (.single '/'))) false) 1 none)

namespace Template

/-- Parts behind what was read before. -/
def pattern (before : Pattern) (ps : List TemplatePart) : Pattern :=
  ps.foldl (fun a part => .seq a part.pattern) before

/-- The end of a path, with one slash more or none. -/
def ended (before : Pattern) : Pattern :=
  .seq (.seq before (.rep (.one (.single '/') false) 0 (some 1))) (.atEnd false)

end Template

namespace Pattern.Reader

variable {fuel : Nat} {before item : Pattern} {c : Char} {cs : List Char}

/-- An item without repetitions is put behind what was read before. -/
theorem continue?_once (h : repetition? cs = some none) :
    continue? (fuel + 1) {} before item cs = sequence? fuel {} (.seq before item) cs := by
  rw [continue?, repeated?, h]

/-- A character that was escaped stands for itself. -/
theorem sequence?_escaped (hc : c ∈ metaCharacters) (h : repetition? cs = some none) :
    sequence? (fuel + 2) {} before ('\\' :: c :: cs) =
      sequence? fuel {} (.seq before (.one (.single c) false)) cs := by
  have hescape : escape? {} (c :: cs) = some (.one (.single c) false, cs) := by
    simp only [metaCharacters, List.mem_cons, List.not_mem_nil, or_false] at hc
    rcases hc with rfl | rfl | rfl | rfl | rfl | rfl | rfl | rfl | rfl | rfl | rfl | rfl | rfl |
      rfl | rfl | rfl | rfl | rfl <;> rfl
  have hitem : sequence? (fuel + 2) {} before ('\\' :: c :: cs) =
      continue? (fuel + 1) {} before (.one (.single c) false) cs := by
    rw [sequence?.eq_5 _ _ _ _ _ (by decide) (by decide)]
    simp [hescape]
  rw [hitem, continue?_once h]

/-- So does one that means nothing else. -/
theorem sequence?_plain (hc : c ∉ metaCharacters) (h : repetition? cs = some none) :
    sequence? (fuel + 2) {} before (c :: cs) =
      sequence? fuel {} (.seq before (.one (.single c) false)) cs := by
  simp only [metaCharacters, List.mem_cons, List.not_mem_nil, or_false, not_or] at hc
  obtain ⟨hescape, hdot, hplus, hstar, hmark, hopen, hclose, hbar, hclass, -, hbrace, -, hstart, hend,
    -⟩ := hc
  have hplain : plain {} c = .one (.single c) false := by
    rw [plain, if_neg hdot, if_neg hstart, if_neg hend]
  have hitem : sequence? (fuel + 2) {} before (c :: cs) =
      continue? (fuel + 1) {} before (plain {} c) cs := by
    rw [sequence?.eq_5 _ _ _ _ _ hbar hclose]
    simp [hescape, hplus, hstar, hmark, hopen, hclass, hbrace]
  rw [hitem, hplain, continue?_once h]

/-- A group of characters other than a slash. -/
theorem sequence?_placeholder (name : String) (h : repetition? cs = some none) :
    sequence? (fuel + 10) {} before ("([^/]+)".toList ++ cs) =
      sequence? (fuel + 8) {} (.seq before (TemplatePart.placeholder name).pattern) cs := by
  calc sequence? (fuel + 10) {} before ('(' :: '[' :: '^' :: '/' :: ']' :: '+' :: ')' :: cs)
      = continue? (fuel + 9) {} before (TemplatePart.placeholder name).pattern cs := rfl
    _ = _ := continue?_once h

/-- The end of an expression. -/
theorem sequence?_ended :
    sequence? (fuel + 5) {} before "/?$".toList = some (Template.ended before, {}, []) := rfl

/-- No part begins with the mark of a repetition. -/
theorem repetition?_parts (ps : List TemplatePart) :
    repetition? (ps.flatMap TemplatePart.expression ++ "/?$".toList) = some none := by
  cases ps with
  | nil => rfl
  | cons part ps =>
    rw [List.flatMap_cons, List.append_assoc]
    cases part with
    | placeholder name => rfl
    | literal c =>
      by_cases hmeta : c ∈ metaCharacters
      · rw [TemplatePart.expression_escaped hmeta]
        rfl
      · have hne : ∀ d ∈ metaCharacters, c ≠ d := fun d hd heq => hmeta (heq ▸ hd)
        rw [TemplatePart.expression_plain hmeta]
        refine repetition?.eq_5 _ ?_ ?_ ?_ ?_ <;> intro cs heq
        · exact hne '?' (by decide) (List.cons.inj heq).1
        · exact hne '*' (by decide) (List.cons.inj heq).1
        · exact hne '+' (by decide) (List.cons.inj heq).1
        · exact hne '\x7b' (by decide) (List.cons.inj heq).1

/-- A part takes at most two steps for each of its characters. -/
theorem exists_sequence?_part (part : TemplatePart) (hcs : repetition? cs = some none)
    (h : 2 * (part.expression ++ cs).length + 6 ≤ fuel) :
    ∃ n, 2 * cs.length + 6 ≤ n ∧ sequence? fuel {} before (part.expression ++ cs) =
      sequence? n {} (.seq before part.pattern) cs := by
  rw [List.length_append] at h
  cases part with
  | literal c =>
    by_cases hmeta : c ∈ metaCharacters
    · rw [TemplatePart.expression_escaped hmeta] at h ⊢
      obtain ⟨n, rfl⟩ := Nat.exists_eq_add_of_le' (show 2 ≤ fuel by omega)
      refine ⟨n, ?_, sequence?_escaped hmeta hcs⟩
      simp only [List.length_cons] at h
      omega
    · rw [TemplatePart.expression_plain hmeta] at h ⊢
      obtain ⟨n, rfl⟩ := Nat.exists_eq_add_of_le' (show 2 ≤ fuel by omega)
      refine ⟨n, ?_, sequence?_plain hmeta hcs⟩
      simp only [List.length_cons] at h
      omega
  | placeholder name =>
    have hlength : (TemplatePart.placeholder name).expression.length = 7 := rfl
    obtain ⟨n, rfl⟩ := Nat.exists_eq_add_of_le' (show 10 ≤ fuel by omega)
    exact ⟨n + 8, by omega, sequence?_placeholder name hcs⟩

/-- **Parts are read one after the other, up to the end.** -/
theorem sequence?_parts (ps : List TemplatePart)
    (h : 2 * (ps.flatMap TemplatePart.expression ++ "/?$".toList).length + 6 ≤ fuel) :
    sequence? fuel {} before (ps.flatMap TemplatePart.expression ++ "/?$".toList) =
      some (Template.ended (Template.pattern before ps), {}, []) := by
  induction ps generalizing fuel before with
  | nil =>
    obtain ⟨n, rfl⟩ := Nat.exists_eq_add_of_le' (show 5 ≤ fuel from le_trans (by omega) h)
    exact sequence?_ended
  | cons part ps ih =>
    rw [List.flatMap_cons, List.append_assoc] at h ⊢
    obtain ⟨n, hn, hpart⟩ := exists_sequence?_part part (repetition?_parts ps) h
    rw [hpart, ih hn]
    rfl

end Pattern.Reader

namespace PathPattern

/-- What the expression of a template is read as. -/
def pattern : PathPattern → Pattern
  | .root => .seq (.seq (.seq .empty (.atStart false)) (.one (.single '/') false)) (.atEnd false)
  | .parts ps => Template.ended (Template.pattern (.seq .empty (.atStart false)) ps)

/-- **The expression of a template is read as its pattern.** -/
theorem read?_expression (p : PathPattern) : Pattern.read? p.expression = some p.pattern := by
  cases p with
  | root => rfl
  | parts ps =>
    generalize htail : ps.flatMap TemplatePart.expression ++ "/?$".toList = tail
    have htext : (parts ps).expression.toList = '^' :: tail := by rw [toList_expression, htail]
    have hstart : Reader.sequence? (4 * tail.length + 5 + 2) {} .empty ('^' :: tail) =
        Reader.sequence? (4 * tail.length + 5) {} (.seq .empty (.atStart false)) tail :=
      Reader.continue?_once (htail ▸ Reader.repetition?_parts ps)
    have hparts : Reader.sequence? (4 * tail.length + 5) {} (.seq .empty (.atStart false)) tail =
        some ((parts ps).pattern, {}, []) := by
      have hlength : 3 ≤ tail.length := by
        rw [← htail, List.length_append]
        exact Nat.le_add_left 3 _
      subst htail
      exact Reader.sequence?_parts ps (by omega)
    -- four steps are allowed for a character, and two at most are taken
    have hfuel : 4 * ('^' :: tail).length + 4 = 4 * tail.length + 5 + 2 + 1 := by
      rw [List.length_cons]
      omega
    have hread : Reader.alternatives? (4 * ('^' :: tail).length + 4) {} ('^' :: tail) =
        some ((parts ps).pattern, []) := by rw [hfuel, Reader.alternatives?, hstart, hparts]
    unfold Pattern.read?
    simp only [htext, hread]

end PathPattern

/-! ## Matching -/

namespace Template

variable {path : List Char} {i k : Nat}

theorem drop_eq_cons_iff {c : Char} {rest : List Char} :
    path.drop k = c :: rest ↔ path[k]? = some c ∧ rest = path.drop (k + 1) := by
  constructor
  · intro h
    have hhead : (path.drop k)[0]? = path[k + 0]? := List.getElem?_drop
    have htail : (path.drop k).drop 1 = path.drop (k + 1) := List.drop_drop
    rw [h] at hhead htail
    exact ⟨hhead.symm, htail⟩
  · rintro ⟨hc, rfl⟩
    obtain ⟨hlt, rfl⟩ := List.getElem?_eq_some_iff.mp hc
    exact List.drop_eq_getElem_cons hlt

/-- A placeholder takes characters from where it begins to where the rest begins. -/
theorem exists_fits_placeholder_iff {name : String} {ps : List TemplatePart} :
    (∃ fillers, Fits (.placeholder name :: ps) fillers (path.drop k)) ↔
      ∃ j, (k < j ∧ ∀ m, k ≤ m → m < j → ∃ c, path[m]? = some c ∧ c ≠ '/') ∧
        ∃ fillers, Fits ps fillers (path.drop j) := by
  constructor
  · rintro ⟨fillers, h⟩
    obtain ⟨filler, fillers', rest, -, hdrop, hfiller, hrest⟩ := fits_placeholder_iff.mp h
    have hbehind : path.drop (k + filler.length) = rest := by
      rw [← List.drop_drop, hdrop, List.drop_left]
    have hlength := List.length_pos_iff.mpr hfiller.ne_nil
    refine ⟨k + filler.length, ⟨by omega, fun m hkm hmj => ?_⟩, fillers', hbehind ▸ hrest⟩
    have hm : m - k < filler.length := by omega
    have hget : path[m]? = some filler[m - k] := by
      calc path[m]? = path[k + (m - k)]? := by rw [Nat.add_sub_cancel' hkm]
        _ = (path.drop k)[m - k]? := List.getElem?_drop.symm
        _ = some filler[m - k] := by rw [hdrop, List.getElem?_append_left hm, List.getElem?_eq_getElem hm]
    refine ⟨_, hget, fun heq => hfiller.notMem ?_⟩
    exact heq ▸ List.getElem_mem hm
  · rintro ⟨j, ⟨hkj, hall⟩, fillers, hrest⟩
    have hsplit : path.drop k = (path.drop k).take (j - k) ++ path.drop j := by
      have hdrop : (path.drop k).drop (j - k) = path.drop j := by
        rw [List.drop_drop, Nat.add_sub_cancel' hkj.le]
      rw [← hdrop, List.take_append_drop]
    have hfiller : IsFiller ((path.drop k).take (j - k)) := by
      constructor
      · obtain ⟨c, hc, -⟩ := hall k le_rfl hkj
        rw [drop_eq_cons_iff.mpr ⟨hc, rfl⟩]
        obtain ⟨n, hn⟩ : ∃ n, j - k = n + 1 := ⟨j - k - 1, by omega⟩
        rw [hn]
        exact List.cons_ne_nil _ _
      · intro hmem
        obtain ⟨n, hn, hslash⟩ := List.mem_iff_getElem.mp hmem
        have hlt : n < j - k := lt_of_lt_of_le hn (List.length_take_le _ _)
        obtain ⟨c, hc, hne⟩ := hall (k + n) (by omega) (by omega)
        have hget : ((path.drop k).take (j - k))[n]? = path[k + n]? := by
          rw [List.getElem?_take_of_lt hlt, List.getElem?_drop]
        rw [hc, List.getElem?_eq_getElem hn, hslash] at hget
        exact hne (Option.some.inj hget).symm
    exact ⟨_ :: fillers, fits_placeholder_iff.mpr ⟨_, fillers, _, rfl, hsplit, hfiller, hrest⟩⟩

/-- The end of a path. -/
theorem exists_end_ended {before : Pattern} (h : ∀ k ∈ ends path.toArray before i, k ≤ path.length) :
    (∃ j, j ∈ ends path.toArray (ended before) i) ↔
      ∃ k ∈ ends path.toArray before i, ∃ fillers, Fits [] fillers (path.drop k) := by
  simp only [ended, mem_ends_seq, mem_ends_optional, mem_ends_atEnd, List.size_toArray,
    mem_ends_one, CharClass.holds_single_iff, List.getElem?_toArray]
  constructor
  · rintro ⟨j, m, ⟨k, hk, hm⟩, hend, -⟩
    refine ⟨k, hk, [], fits_nil_iff.mpr ⟨rfl, ?_⟩⟩
    rcases hm with rfl | ⟨c, hc, rfl, rfl⟩
    · exact Or.inl (List.drop_eq_nil_iff.mpr hend.ge)
    · exact Or.inr (drop_eq_cons_iff.mpr ⟨hc, (List.drop_eq_nil_iff.mpr hend.ge).symm⟩)
  · rintro ⟨k, hk, fillers, hfits⟩
    obtain ⟨-, hpath⟩ := fits_nil_iff.mp hfits
    rcases hpath with hpath | hpath
    · have hend : k = path.length := le_antisymm (h k hk) (List.drop_eq_nil_iff.mp hpath)
      exact ⟨k, k, ⟨k, hk, Or.inl rfl⟩, hend, rfl⟩
    · obtain ⟨hc, hrest⟩ := drop_eq_cons_iff.mp hpath
      have hlt := (List.getElem?_eq_some_iff.mp hc).1
      have hge := List.drop_eq_nil_iff.mp hrest.symm
      exact ⟨k + 1, k + 1, ⟨k, hk, Or.inr ⟨'/', hc, rfl, rfl⟩⟩, by omega, rfl⟩

/-- A part matches characters of the path only. -/
theorem le_length_of_mem_ends {part : TemplatePart} {k j : Nat}
    (h : j ∈ ends path.toArray part.pattern k) : j ≤ path.length := by
  have hlt : ∀ {m : Nat} {c : Char}, path[m]? = some c → m < path.length :=
    fun hc => (List.getElem?_eq_some_iff.mp hc).1
  cases part with
  | literal c =>
    obtain ⟨d, hd, -, rfl⟩ := mem_ends_one.mp h
    exact hlt (List.getElem?_toArray ▸ hd)
  | placeholder name =>
    obtain ⟨m, -, h⟩ := mem_ends_seq.mp h
    obtain ⟨hmj, hall⟩ := mem_ends_many.mp h
    obtain ⟨c, hc, -⟩ := hall (j - 1) (by omega) (by omega)
    have := hlt (List.getElem?_toArray ▸ hc)
    omega

/-- **Parts match up to the end exactly where their placeholders can be filled.** -/
theorem exists_end_iff (ps : List TemplatePart) {before : Pattern}
    (h : ∀ k ∈ ends path.toArray before i, k ≤ path.length) :
    (∃ j, j ∈ ends path.toArray (ended (pattern before ps)) i) ↔
      ∃ k ∈ ends path.toArray before i, ∃ fillers, Fits ps fillers (path.drop k) := by
  induction ps generalizing before with
  | nil => exact exists_end_ended h
  | cons part ps ih =>
    have hbefore : ∀ k ∈ ends path.toArray (.seq before part.pattern) i, k ≤ path.length := by
      intro j hj
      obtain ⟨k, -, hj⟩ := mem_ends_seq.mp hj
      exact le_length_of_mem_ends hj
    -- where the part ends, the others begin
    have hpart : ∀ k, (∃ fillers, Fits (part :: ps) fillers (path.drop k)) ↔
        ∃ j ∈ ends path.toArray part.pattern k, ∃ fillers, Fits ps fillers (path.drop j) := by
      intro k
      cases part with
      | literal c =>
        simp only [TemplatePart.pattern, mem_ends_one, CharClass.holds_single_iff,
          List.getElem?_toArray, fits_literal_iff, drop_eq_cons_iff]
        constructor
        · rintro ⟨fillers, rest, ⟨hc, rfl⟩, hrest⟩
          exact ⟨k + 1, ⟨c, hc, rfl, rfl⟩, fillers, hrest⟩
        · rintro ⟨j, ⟨d, hd, rfl, rfl⟩, fillers, hrest⟩
          exact ⟨fillers, _, ⟨hd, rfl⟩, hrest⟩
      | placeholder name =>
        simp only [exists_fits_placeholder_iff, TemplatePart.pattern, mem_ends_seq, mem_ends_empty,
          mem_ends_many, CharClass.holds_other_iff, List.getElem?_toArray, exists_eq_left]
    show (∃ j, j ∈ ends path.toArray (ended (pattern (.seq before part.pattern) ps)) i) ↔ _
    rw [ih hbefore]
    constructor
    · rintro ⟨j, hj, hrest⟩
      obtain ⟨k, hk, hj⟩ := mem_ends_seq.mp hj
      exact ⟨k, hk, (hpart k).mpr ⟨j, hj, hrest⟩⟩
    · rintro ⟨k, hk, hfits⟩
      obtain ⟨j, hj, hrest⟩ := (hpart k).mp hfits
      exact ⟨j, mem_ends_seq.mpr ⟨k, hk, hj⟩, hrest⟩

end Template

namespace PathPattern

theorem exists_end_root_iff {path : List Char} :
    (∃ i ≤ path.length, ∃ j, j ∈ ends path.toArray root.pattern i) ↔ path.drop 0 = ['/'] := by
  simp only [pattern, mem_ends_seq, mem_ends_empty, mem_ends_atStart, mem_ends_atEnd, mem_ends_one,
    CharClass.holds_single_iff, List.getElem?_toArray, List.size_toArray,
    Template.drop_eq_cons_iff]
  constructor
  · rintro ⟨i, -, j, k, ⟨m, ⟨n, rfl, rfl, rfl⟩, c, hc, rfl, rfl⟩, hend, -⟩
    exact ⟨hc, (List.drop_eq_nil_iff.mpr hend.ge).symm⟩
  · rintro ⟨hc, hrest⟩
    have hlt := (List.getElem?_eq_some_iff.mp hc).1
    have hge := List.drop_eq_nil_iff.mp hrest.symm
    exact ⟨0, hlt.le, 1, 1, ⟨0, ⟨0, rfl, rfl, rfl⟩, '/', hc, rfl, rfl⟩, by omega, rfl⟩

/-- **The expression of a template matches exactly the paths that fill the template.** -/
theorem occursIn_pattern (p : PathPattern) (path : String) :
    p.pattern.occursIn path = (p.fill? path.toList).isSome := by
  rw [Bool.eq_iff_iff, occursIn_iff]
  cases p with
  | root =>
    rw [exists_end_root_iff, fill?, List.drop_zero]
    by_cases h : path.toList = ['/'] <;> simp [h]
  | parts ps =>
    have hbefore : ∀ i k, k ∈ ends path.toList.toArray (.seq .empty (.atStart false)) i ↔
        i = 0 ∧ k = 0 := by
      intro i k
      simp only [mem_ends_seq, mem_ends_empty, mem_ends_atStart, exists_eq_left]
      constructor
      · rintro ⟨rfl, rfl⟩
        exact ⟨rfl, rfl⟩
      · rintro ⟨rfl, rfl⟩
        exact ⟨rfl, rfl⟩
    have hend : ∀ i, (∃ j, j ∈ ends path.toList.toArray (parts ps).pattern i) ↔
        i = 0 ∧ ∃ fillers, Template.Fits ps fillers path.toList := by
      intro i
      show (∃ j, j ∈ ends path.toList.toArray (Template.ended (Template.pattern _ ps)) i) ↔ _
      rw [Template.exists_end_iff ps fun k hk => by rw [((hbefore i k).mp hk).2]; exact Nat.zero_le _]
      constructor
      · rintro ⟨k, hk, hfits⟩
        obtain ⟨rfl, rfl⟩ := (hbefore i k).mp hk
        exact ⟨rfl, hfits⟩
      · rintro ⟨rfl, hfits⟩
        exact ⟨0, (hbefore 0 0).mpr ⟨rfl, rfl⟩, hfits⟩
    rw [fill?, Template.isSome_fill?_iff]
    constructor
    · rintro ⟨i, -, hi⟩
      exact ((hend i).mp hi).2
    · intro hfits
      exact ⟨0, Nat.zero_le _, (hend 0).mpr ⟨rfl, hfits⟩⟩

end PathPattern

end ApiContract
