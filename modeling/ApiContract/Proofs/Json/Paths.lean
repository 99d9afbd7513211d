import ApiContract.Json.Pointer
/-!
# Data paths of pointers

A segment is written with its tildes and slashes escaped, so that a slash begins a segment and stands
nowhere else. Reading turns the escapes back, slashes before tildes. So the data path of a pointer shows
the segments that the pointer was made of, one after the other.
-/

namespace ApiContract

namespace Pointer

/-! ## One segment -/

theorem escape_cons (c : Char) (cs : List Char) : escape (c :: cs) =
    (if c = '~' then ['~', '0'] else if c = '/' then ['~', '1'] else [c]) ++ escape cs :=
  List.flatMap_cons

/-- No slash is left in what was escaped. -/
theorem slash_not_mem_escape (segment : List Char) : '/' ∉ escape segment := by
  induction segment with
  | nil => exact List.not_mem_nil
  | cons c cs ih =>
    rw [escape_cons, List.mem_append, not_or]
    refine ⟨?_, ih⟩
    by_cases htilde : c = '~'
    · rw [if_pos htilde]
      decide
    · by_cases hslash : c = '/'
      · rw [if_neg htilde, if_pos hslash]
        decide
      · rw [if_neg htilde, if_neg hslash, List.mem_singleton]
        exact Ne.symm hslash

theorem slashes_cons {c : Char} (h : c ≠ '~') (cs : List Char) :
    slashes (c :: cs) = c :: slashes cs :=
  slashes.eq_2 c cs fun _ hc _ => h hc

theorem tildes_cons {c : Char} (h : c ≠ '~') (cs : List Char) :
    tildes (c :: cs) = c :: tildes cs :=
  tildes.eq_2 c cs fun _ hc _ => h hc

/-- A segment with its tildes escaped. -/
def escapeTildes (segment : List Char) : List Char :=
  segment.flatMap fun c => if c = '~' then ['~', '0'] else [c]

theorem escapeTildes_cons (c : Char) (cs : List Char) : escapeTildes (c :: cs) =
    (if c = '~' then ['~', '0'] else [c]) ++ escapeTildes cs :=
  List.flatMap_cons

/-- Every tilde of the segment still has its zero behind it when slashes are made, so none is made of
the tilde and a one that stood behind it. -/
theorem slashes_escape (segment : List Char) : slashes (escape segment) = escapeTildes segment := by
  induction segment with
  | nil => rfl
  | cons c cs ih =>
    rw [escape_cons, escapeTildes_cons, ← ih]
    by_cases htilde : c = '~'
    · rw [if_pos htilde, if_pos htilde]
      show slashes ('~' :: '0' :: escape cs) = '~' :: '0' :: slashes (escape cs)
      have hzero : ∀ rest, '~' = '~' → '0' :: escape cs = '1' :: rest → False :=
        fun _ _ h => absurd (List.cons.inj h).1 (by decide)
      rw [slashes.eq_2 _ _ hzero, slashes_cons (by decide)]
    · rw [if_neg htilde, if_neg htilde]
      by_cases hslash : c = '/'
      · rw [if_pos hslash, hslash]
        rfl
      · rw [if_neg hslash]
        exact slashes_cons htilde _

theorem tildes_escapeTildes (segment : List Char) : tildes (escapeTildes segment) = segment := by
  induction segment with
  | nil => rfl
  | cons c cs ih =>
    rw [escapeTildes_cons]
    by_cases htilde : c = '~'
    · rw [if_pos htilde, htilde]
      show '~' :: tildes (escapeTildes cs) = '~' :: cs
      rw [ih]
    · rw [if_neg htilde, List.singleton_append, tildes_cons htilde, ih]

/-- **A segment is read as it was written.** -/
theorem unescape_escape (segment : List Char) : unescape (escape segment) = segment := by
  rw [unescape, slashes_escape, tildes_escapeTildes]

/-! ## All segments -/

theorem splitOn_render (segments : List String) {front : List Char} (h : '/' ∉ front) :
    Text.splitOn '/' (front ++ (render segments).toList) =
      front :: segments.map fun s => escape s.toList := by
  rw [render, String.toList_ofList]
  induction segments generalizing front with
  | nil => rw [List.flatMap_nil, List.append_nil, Text.splitOn_of_not_mem h, List.map_nil]
  | cons s rest ih =>
    rw [List.flatMap_cons, List.cons_append, Text.splitOn_append_cons h,
      ih (slash_not_mem_escape s.toList), List.map_cons]

/-- **The segments of a pointer are those it was made of.** -/
theorem segments_render (segments : List String) :
    Pointer.segments (render segments).toList = segments.map String.toList := by
  have hsplit := splitOn_render segments (List.not_mem_nil (a := '/'))
  rw [List.nil_append] at hsplit
  rw [Pointer.segments, hsplit, List.tail_cons, List.map_map]
  exact List.map_congr_left fun s _ => unescape_escape s.toList

/-! ## Data paths -/

/-- How a data path shows a segment: digits, if there are any and nothing else, in brackets, and any
other text behind a point. -/
def shown (segment : String) : String :=
  if segment ≠ "" ∧ segment.toList.all Char.isDigit = true then "[" ++ segment ++ "]"
  else "." ++ segment

theorem isIndex_iff {segment : String} : isIndex segment.toList = true ↔
    segment ≠ "" ∧ segment.toList.all Char.isDigit = true := by
  rw [isIndex, Bool.and_eq_true, Bool.not_eq_true', List.isEmpty_eq_false_iff, ne_eq,
    String.toList_eq_nil_iff]

theorem toList_shown (segment : String) : (shown segment).toList =
    if isIndex segment.toList then '[' :: segment.toList ++ [']'] else '.' :: segment.toList := by
  unfold shown
  by_cases h : isIndex segment.toList = true
  · rw [if_pos h, if_pos (isIndex_iff.mp h), String.toList_append, String.toList_append]
    rfl
  · rw [if_neg h, if_neg (mt isIndex_iff.mpr h), String.toList_append]
    rfl

/-- **The data path of a pointer shows the segments that it was made of, in order.** -/
theorem toPath_render (segments : List String) :
    toPath (render segments) = String.join (segments.map shown) := by
  refine String.toList_inj.mp ?_
  rw [toPath, segments_render, dotted, String.toList_ofList, String.toList_join, List.flatMap_map,
    List.flatMap_map]
  simp only [toList_shown]

example : toPath (render ["body", "a/b", "~1", "0", ""]) = ".body.a/b.~1[0]." := by decide

end Pointer

end ApiContract
