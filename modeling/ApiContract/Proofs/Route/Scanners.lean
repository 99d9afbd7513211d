import ApiContract.Pattern.Groups
import ApiContract.Proofs.Route.Filling
import ApiContract.Route.Expression
import Mathlib.Data.List.DropRight
/-!
# Two readings of a template

The names of a template are listed by one scan, and its expression is made by another, which leaves out
the slashes at the end and gives the root a case of its own. Both find the same placeholders, whatever
braces the template has; and the expression has a group for each of them, since literal text is escaped
and opens none.
-/

namespace ApiContract

namespace Template

/-! ## Names and parts -/

theorem placeholders_append (ps qs : List TemplatePart) :
    placeholders (ps ++ qs) = placeholders ps ++ placeholders qs := List.filterMap_append

theorem placeholders_literal (text : List Char) : placeholders (text.map .literal) = [] := by
  rw [placeholders, List.filterMap_map, List.filterMap_eq_nil_iff]
  intro c _
  rfl

theorem names_cons_of_ne {c : Char} (h : c ≠ '\x7b') (cs : List Char) :
    names (c :: cs) = names cs := by rw [names, if_neg h]

theorem namesInside_of_not_mem {cs : List Char} (h : '\x7d' ∉ cs) (rev : List Char) :
    namesInside rev cs = [] := by
  induction cs generalizing rev with
  | nil => rw [namesInside]
  | cons c cs ih =>
    rw [List.mem_cons, not_or] at h
    rw [namesInside, if_neg (Ne.symm h.1), ih h.2]

/-- A name ends where its brace is closed. -/
theorem namesInside_append {name : List Char} (h : '\x7d' ∉ name) (rev rest : List Char) :
    namesInside rev (name ++ '\x7d' :: rest) =
      String.ofList (rev.reverse ++ name) :: names rest := by
  induction name generalizing rev with
  | nil => rw [List.nil_append, namesInside, if_pos rfl, List.append_nil]
  | cons c name ih =>
    rw [List.mem_cons, not_or] at h
    rw [List.cons_append, namesInside, if_neg (Ne.symm h.1), ih h.2, List.reverse_cons,
      List.append_assoc, List.singleton_append]

/-- Text without a placeholder names nothing: one scan stops at a brace that is not closed, the other
takes it for literal text and goes on. -/
theorem names_of_not_hasPlaceholder {cs : List Char} (h : ¬ HasPlaceholder cs) : names cs = [] := by
  induction cs with
  | nil => rw [names]
  | cons c cs ih =>
    rw [hasPlaceholder_cons, not_or, not_and] at h
    by_cases hc : c = '\x7b'
    · rw [names, if_pos hc, namesInside_of_not_mem (h.1 hc)]
    · rw [names_cons_of_ne hc, ih h.2]

theorem Reads.names_eq {cs : List Char} {ps : List TemplatePart} (h : Reads cs ps) :
    names cs = placeholders ps := by
  induction h with
  | literal h => rw [names_of_not_hasPlaceholder h, placeholders_literal]
  | @placeholder front name rest ps hfront hname _ ih =>
    rw [placeholders_append, placeholders_literal, List.nil_append]
    induction front with
    | nil =>
      rw [List.nil_append, names, if_pos rfl, namesInside_append hname, ih]
      rfl
    | cons c front ih' =>
      rw [List.mem_cons, not_or] at hfront
      rw [List.cons_append, names_cons_of_ne (Ne.symm hfront.1), ih' hfront.2]

/-- **The names in a text are those of its placeholders.** -/
theorem names_eq_placeholders (cs : List Char) : names cs = placeholders (parts cs) :=
  (reads_parts cs).names_eq

/-! ## The end of a template -/

mutual

/-- A character that closes no brace adds no name at the end. -/
theorem names_concat {c : Char} (h : c ≠ '\x7d') : (cs : List Char) → names (cs ++ [c]) = names cs
  | [] => by simp [names, namesInside]
  | d :: cs => by
    rw [List.cons_append, names, names, names_concat h cs, namesInside_concat h [] cs]

theorem namesInside_concat {c : Char} (h : c ≠ '\x7d') (rev : List Char) :
    (cs : List Char) → namesInside rev (cs ++ [c]) = namesInside rev cs
  | [] => by simp [namesInside, h]
  | d :: cs => by
    rw [List.cons_append, namesInside, namesInside, names_concat h cs,
      namesInside_concat h (d :: rev) cs]

end

/-- Slashes at the end hold no name. -/
theorem names_dropEnd (cs : List Char) : names (Text.dropEnd (· = '/') cs) = names cs := by
  change names (cs.rdropWhile (· = '/')) = names cs
  induction cs using List.reverseRecOn with
  | nil => rfl
  | append_singleton cs c ih =>
    by_cases hc : c = '/'
    · rw [List.rdropWhile_concat_pos _ _ _ (by simpa using hc), ih,
        names_concat (by rw [hc]; decide)]
    · rw [List.rdropWhile_concat_neg _ _ _ (by simpa using hc)]

end Template

/-! ## Groups -/

namespace Pattern

variable {fuel : Nat} {c : Char} {cs : List Char}

theorem countGroups_escaped : countGroups (fuel + 1) ('\\' :: c :: cs) = countGroups fuel cs := by
  rw [countGroups, if_pos rfl, List.drop_succ_cons, List.drop_zero]

/-- A character that escapes nothing and opens neither a class nor a group. -/
theorem countGroups_plain (h : c ∉ ['\\', '[', '(']) :
    countGroups (fuel + 1) (c :: cs) = countGroups fuel cs := by
  simp only [List.mem_cons, List.not_mem_nil, or_false, not_or] at h
  rw [countGroups, if_neg h.1, if_neg h.2.1, if_neg (by simp [h.2.2])]

/-- A group of characters other than a slash; the class in it opens no other. -/
theorem countGroups_placeholder :
    countGroups (fuel + 7) ("([^/]+)".toList ++ cs) = countGroups (fuel + 3) cs + 1 := by
  have hclass : Reader.class? (fuel + 5) ('^' :: '/' :: ']' :: '+' :: ')' :: cs) =
      some (.compl (.union .none (.single '/')), '+' :: ')' :: cs) := rfl
  calc countGroups (fuel + 7) ('(' :: '[' :: '^' :: '/' :: ']' :: '+' :: ')' :: cs)
      = countGroups (fuel + 6) ('[' :: '^' :: '/' :: ']' :: '+' :: ')' :: cs) + 1 := rfl
    _ = countGroups (fuel + 5) ('+' :: ')' :: cs) + 1 := by
      rw [countGroups, if_neg (by decide), if_pos rfl, hclass]
    _ = countGroups (fuel + 3) cs + 1 := by
      rw [countGroups_plain (by decide), countGroups_plain (by decide)]

/-- A part takes no more steps than characters; a placeholder adds a group, and literal text none. -/
theorem exists_countGroups_part {part : TemplatePart} (h : part.expression.length ≤ fuel) :
    ∃ n, fuel ≤ n + part.expression.length ∧ countGroups fuel (part.expression ++ cs) =
      countGroups n cs + (Template.placeholders [part]).length := by
  cases part with
  | literal c =>
    by_cases hmeta : c ∈ metaCharacters
    · rw [TemplatePart.expression_escaped hmeta] at h ⊢
      obtain ⟨n, rfl⟩ := Nat.exists_eq_add_of_le' (show 2 ≤ fuel from h)
      exact ⟨n + 1, Nat.le_succ _, countGroups_escaped⟩
    · rw [TemplatePart.expression_plain hmeta] at h ⊢
      obtain ⟨n, rfl⟩ := Nat.exists_eq_add_of_le' (show 1 ≤ fuel from h)
      refine ⟨n, Nat.le_refl _, countGroups_plain fun hmem => hmeta ?_⟩
      exact (by decide : ['\\', '[', '('] ⊆ metaCharacters) hmem
  | placeholder name =>
    obtain ⟨n, rfl⟩ := Nat.exists_eq_add_of_le' (show 7 ≤ fuel from h)
    exact ⟨n + 3, Nat.add_le_add_right (Nat.le_add_right n 3) 7, countGroups_placeholder⟩

/-- The parts of a template have a group for each placeholder. -/
theorem countGroups_parts (ps : List TemplatePart)
    (h : (ps.flatMap TemplatePart.expression ++ "/?$".toList).length ≤ fuel) :
    countGroups fuel (ps.flatMap TemplatePart.expression ++ "/?$".toList) =
      (Template.placeholders ps).length := by
  induction ps generalizing fuel with
  | nil =>
    obtain ⟨n, rfl⟩ := Nat.exists_eq_add_of_le' (show 3 ≤ fuel from h)
    show countGroups (n + 3) ['/', '?', '$'] = 0
    rw [countGroups_plain (by decide), countGroups_plain (by decide),
      countGroups_plain (by decide)]
    cases n <;> rfl
  | cons part ps ih =>
    rw [List.flatMap_cons, List.append_assoc, List.length_append] at h
    obtain ⟨n, hn, hcount⟩ := exists_countGroups_part (Nat.le_of_add_right_le h)
    have hps : Template.placeholders (part :: ps) =
        Template.placeholders [part] ++ Template.placeholders ps :=
      Template.placeholders_append [part] ps
    rw [List.flatMap_cons, List.append_assoc, hcount, ih (by omega), hps, List.length_append,
      Nat.add_comm]

end Pattern

namespace PathPattern

/-- Both scans of a template find the same names. -/
theorem names_ofTemplate (template : String) :
    (ofTemplate template).names = Template.names template.toList := by
  unfold ofTemplate
  split
  · next h =>
    rw [Bool.or_eq_true, decide_eq_true_eq, decide_eq_true_eq] at h
    rcases h with rfl | rfl <;> rfl
  · rw [names, ← Template.names_eq_placeholders, Template.names_dropEnd]

/-- The expression has a group for each placeholder. -/
theorem groups_expression (p : PathPattern) : Pattern.groups p.expression = p.names.length := by
  cases p with
  | root => decide
  | parts ps =>
    rw [Pattern.groups, ← String.length_toList, toList_expression, List.length_cons,
      Pattern.countGroups_plain (by decide), Pattern.countGroups_parts ps (Nat.le_refl _), names]

/-- **The two scans of a template are in step: they find the same names in the same order, and the
expression has a group for each of them.** -/
theorem scans_agree (template : String) :
    Template.names template.toList = (ofTemplate template).names ∧
      Pattern.groups (ofTemplate template).expression = (ofTemplate template).names.length :=
  ⟨(names_ofTemplate template).symm, groups_expression _⟩

end PathPattern

end ApiContract
