import ApiContract.Proofs.Schema.Counterparts
import ApiContract.Proofs.Schema.Resolving
/-!
# Schemas that require nothing by an empty list

A list of no required names judges nothing, nothing looks for it beside other keywords, and no
reference leads to it or through it. So it may be left out of a document: what was compiled still is,
and the same values are accepted.
-/

namespace ApiContract

namespace Schema

/-! ## Keywords that judge nothing -/

/-- Whether a keyword finds nothing and covers nothing, whatever the value. -/
def Idle (k : Keyword) : Prop :=
  ∀ (m : Meaning) (p : Place) (v : Json) (covered : Coverage), judgeKeyword m p v covered k = {}

theorem idle_required_nil : Idle (.required []) := by
  intro m p v covered
  cases v <;> rfl

section

variable {m : Meaning} {p : Place} {v : Json} {covered : Coverage} {ks ks' : List Keyword}

theorem judgeAll_append_of_idle (h : ∀ k ∈ ks, Idle k) :
    judgeAll m p v covered (ks ++ ks') = judgeAll m p v covered ks' := by
  induction ks with
  | nil => rfl
  | cons k ks ih =>
    rw [List.forall_mem_cons] at h
    simp only [List.cons_append, judgeAll, h.1 m p v covered]
    have hcovered : covered ++ Coverage.mk [] [] = covered :=
      Coverage.ext (List.append_nil _) (List.append_nil _)
    show {} ++ judgeAll m p v (covered ++ Coverage.mk [] []) _ = _
    rw [hcovered, ih h.2]
    rfl

theorem judgeAll_append_congr
    (h : ∀ covered, judgeAll m p v covered ks = judgeAll m p v covered ks') (front : List Keyword) :
    judgeAll m p v covered (front ++ ks) = judgeAll m p v covered (front ++ ks') := by
  induction front generalizing covered with
  | nil => exact h covered
  | cons k front ih => simp only [List.cons_append, judgeAll, ih]

/-- Members whose keywords are idle may be left out. -/
theorem judgeAll_flatMap_filter {α : Type} {es : List α} {q : α → Bool} {f : α → List Keyword}
    (h : ∀ e ∈ es, q e = false → ∀ k ∈ f e, Idle k) :
    judgeAll m p v covered (es.flatMap f) = judgeAll m p v covered ((es.filter q).flatMap f) := by
  induction es generalizing covered with
  | nil => rfl
  | cons e es ih =>
    rw [List.forall_mem_cons] at h
    rw [List.flatMap_cons, List.filter_cons]
    split
    · rw [List.flatMap_cons]
      exact judgeAll_append_congr (fun covered => ih h.2) (f e)
    · next hq =>
      rw [judgeAll_append_of_idle (h.1 (by simpa using hq))]
      exact ih h.2

end

/-! ## Reading -/

theorem flatMap_filter_of_nil {α β : Type} {es : List α} {q : α → Bool} {f : α → List β}
    (h : ∀ e ∈ es, q e = false → f e = []) : (es.filter q).flatMap f = es.flatMap f := by
  induction es with
  | nil => rfl
  | cons e es ih =>
    rw [List.forall_mem_cons] at h
    rw [List.filter_cons, List.flatMap_cons, ← ih h.2]
    split
    · rfl
    · next hq => rw [h.1 (by simpa using hq), List.nil_append]

section

variable {dialect : Dialect} {formats : Bool} {members : Assoc Json}

/-- Whether nothing but empty lists stands under `required`. -/
def RequiresNothing (members : Assoc Json) : Prop :=
  ∀ e ∈ members, e.1 = "required" → e.2 = .array []

theorem readMember_required_nil (parts : Parts) :
    readMember dialect formats parts ("required", partOf dialect formats "required" (.array [])) =
      ⟨[.required []], []⟩ := by
  cases dialect <;> rfl

/-- **A schema is read alike without an empty list of required names.** -/
theorem counterpart_erase_required (h : RequiresNothing members) :
    Counterpart dialect formats Compiled.JudgedSame (.object members)
      (.object (members.erase "required")) := by
  by_cases hself : dialect = .draft4 → members.get? "$ref" = none
  · have hself' : dialect = .draft4 → (members.erase "required").get? "$ref" = none := by
      rw [Assoc.get?_erase, if_neg (by decide)]
      exact hself
    have hsame : SameBut "required" (readParts dialect formats (members.erase "required"))
        (readParts dialect formats members) := by
      intro k hk
      rw [readParts_eq_map, readParts_eq_map, Assoc.get?_mapValues, Assoc.get?_mapValues,
        Assoc.get?_erase, if_neg (Ne.symm hk)]
    have hparts : readParts dialect formats (members.erase "required") =
        (readParts dialect formats members).filter fun e => e.1 ≠ "required" := by
      rw [readParts_eq_map, readParts_eq_map, List.filter_map]
      rfl
    have hmember : ∀ parts, ∀ e ∈ readParts dialect formats members,
        decide (e.1 ≠ "required") = false →
          readMember dialect formats parts e = ⟨[.required []], []⟩ := by
      intro parts e he hname
      rw [readParts_eq_map] at he
      obtain ⟨member, hmember, rfl⟩ := List.mem_map.mp he
      have hrequired : member.1 = "required" := by simpa using hname
      rw [h member hmember hrequired, hrequired]
      exact readMember_required_nil parts
    refine ⟨?_, fun m p v => ?_⟩ <;> rw [read_of_members hself, read_of_members hself']
    · show (readKeywords _ _ _).events ++ [] = (readKeywords _ _ _).events ++ []
      simp only [List.append_nil, readKeywords_eq, readMember_congr hsame (by decide)]
      rw [hparts]
      refine flatMap_filter_of_nil fun e he hname => ?_
      rw [hmember _ e he hname]
    · show judgeAll m p v {} (readKeywords _ _ _).result =
        judgeAll m p v {} (readKeywords _ _ _).result
      simp only [readKeywords_eq, readMember_congr hsame (by decide)]
      rw [hparts]
      refine judgeAll_flatMap_filter fun e he hname k hk => ?_
      rw [hmember _ e he hname] at hk
      rw [List.mem_singleton.mp hk]
      exact idle_required_nil
  · -- in the older dialect a reference stands for the whole object
    obtain ⟨rfl, hsome⟩ := Classical.not_imp.mp hself
    obtain ⟨target, htarget⟩ := Option.ne_none_iff_exists'.mp hsome
    have hread : read .draft4 formats (.object (members.erase "required")) =
        read .draft4 formats (.object members) := by
      unfold read
      rw [Assoc.get?_erase, if_neg (by decide), htarget]
    exact ⟨by rw [hread], fun m p v => by rw [hread]⟩

end

/-! ## Resolving -/

theorem step?_nil (segment : List Char) : step? (.array []) segment = none := by
  cases h : referenceIndex? segment <;> simp [step?, h]

section

variable {name : String} {members members' : Assoc Json}

theorem follow?_of_sameBut (hsame : SameBut name members members')
    (hleaf : ∀ w, members.get? name = some w → ∀ segment, step? w segment = none)
    {segments : List (List Char)} (hsegments : segments ≠ []) {v : Json}
    (hv : follow? (.object members) segments = some v) :
    members.get? name = some v ∨ follow? (.object members') segments = some v := by
  cases segments with
  | nil => exact absurd rfl hsegments
  | cons s rest =>
    rw [follow?_cons] at hv ⊢
    obtain ⟨w, hw, hv⟩ := Option.bind_eq_some_iff.mp hv
    change members.get? (String.ofList (Pointer.unescape s)) = some w at hw
    by_cases hkey : String.ofList (Pointer.unescape s) = name
    · rw [hkey] at hw
      cases rest with
      | nil => exact Or.inl (hw.trans hv)
      | cons s' rest =>
        rw [follow?_cons, hleaf w hw s'] at hv
        cases hv
    · refine Or.inr (Option.bind_eq_some_iff.mpr ⟨w, ?_, hv⟩)
      exact (hsame _ hkey).symm.trans hw

/-- References lead to the same parts of two objects that differ in a member without parts, but for
the objects themselves and that member. -/
theorem resolveReference_of_sameBut (hsame : SameBut name members members')
    (hleaf : ∀ w, members.get? name = some w → ∀ segment, step? w segment = none) {t : String}
    {v : Json} (hv : resolveReference (.object members) t = .ok v) :
    v = .object members ∧ resolveReference (.object members') t = .ok (.object members') ∨
      members.get? name = some v ∨ resolveReference (.object members') t = .ok v := by
  unfold resolveReference at hv ⊢
  split at hv
  · exact Or.inl ⟨(Except.ok.inj hv).symm, rfl⟩
  · unfold resolveFragment at hv ⊢
    split at hv
    · exact Or.inl ⟨(Except.ok.inj hv).symm, rfl⟩
    · next cs _ =>
      dsimp only at hv ⊢
      cases hdecoded : Utf8.decode? (Percent.decode (Utf8.encode cs)) with
      | none => simp [hdecoded] at hv
      | some decoded =>
        simp only [hdecoded] at hv ⊢
        have hfollow := congrArg Except.toOption hv
        rw [toOption_foldlM] at hfollow
        refine Or.inr ((follow?_of_sameBut hsame hleaf (Text.splitOn_ne_nil _ _) hfollow).imp_right
          fun hfollow' => Except.toOption_eq_some_iff.mp ?_)
        rw [toOption_foldlM, hfollow']
    · cases hv
  · cases hv

end

/-! ## Compiling -/

section

variable {dialect : Dialect} {formats : Bool} {components : Option Json} {members : Assoc Json}

/-- Objects that differ in a member still do with components beside it. -/
theorem exists_sameBut_withComponents (components : Option Json) {name : String}
    {members' : Assoc Json} (hname : name ≠ "components") (h : SameBut name members members') :
    ∃ whole whole' : Assoc Json, withComponents components (.object members) = .object whole ∧
      withComponents components (.object members') = .object whole' ∧
      SameBut name whole whole' ∧ whole.get? name = members.get? name := by
  cases components with
  | none => exact ⟨members, members', rfl, rfl, h, rfl⟩
  | some c =>
    refine ⟨_, _, rfl, rfl, fun k hk => ?_, Assoc.get?_insert_of_ne _ _ (Ne.symm hname)⟩
    rw [Assoc.get?_insert, Assoc.get?_insert, h k hk]

/-- **A document compiles as well without an empty list of required names, and accepts the same.** -/
theorem exists_compile_unrequired {c : Compiled} (hnone : RequiresNothing members)
    (hc : compile dialect formats (withComponents components (.object members)) = .ok c) :
    ∃ c', compile dialect formats
        (withComponents components (.object (members.erase "required"))) = .ok c' ∧
      ∀ v, c.accepts v = c'.accepts v := by
  obtain ⟨hgood, hlink⟩ := compile_eq_ok_iff.mp hc
  obtain ⟨whole, whole', hwhole, hwhole', hsame, hrequired⟩ :=
    exists_sameBut_withComponents components (by decide)
      (sameBut_erase "required" members)
  have hempty : ∀ w, whole.get? "required" = some w → w = .array [] := fun w hw =>
    hnone _ (Assoc.mem_of_get? (hrequired.symm.trans hw)) rfl
  have hroot : Counterpart dialect formats Compiled.JudgedSame
      (withComponents components (.object members))
      (withComponents components (.object (members.erase "required"))) := by
    have hread : Counterpart dialect formats Compiled.JudgedSame (.object members)
        (.object (members.erase "required")) := counterpart_erase_required hnone
    exact ⟨by rw [read_withComponents, read_withComponents]; exact hread.events,
      by rw [read_withComponents, read_withComponents]; exact hread.related⟩
  obtain ⟨c', hlink', hschema, hdefined⟩ := exists_link_counterpart hlink hroot
    fun t v hv hfaultless _ => by
      rw [hwhole] at hv
      rw [hwhole'] at hroot ⊢
      rcases resolveReference_of_sameBut hsame (fun w hw => hempty w hw ▸ step?_nil) hv with
        ⟨rfl, hv'⟩ | hrequired | hv'
      · exact ⟨_, hv', hwhole ▸ hroot⟩
      · rw [hempty v hrequired] at hfaultless
        exact absurd List.mem_cons_self (hfaultless _)
      · exact ⟨v, hv', rfl, fun _ _ _ => rfl⟩
  refine ⟨c', compile_eq_ok_iff.mpr ⟨?_, hlink'⟩, fun v => ?_⟩
  · rw [accepts_withComponents] at hgood ⊢
    exact accepts_erase_required hgood
  · exact Compiled.accepts_eq_of_judgedSame (linked_of_link hlink) (linked_of_link hlink') hschema
      hdefined v

end

/-! ## Nullable schemas -/

theorem modify_erase {β : Type} (members : Assoc β) (key name : String) (f : β → β) :
    (members.erase name).modify key f = Assoc.erase (members.modify key f) name := by
  unfold Assoc.modify Assoc.erase
  rw [List.filter_map]
  refine congrArg (List.map _) (List.filter_congr fun e _ => ?_)
  simp only [Function.comp]
  split <;> rfl

theorem widen_erase (members : Assoc Json) {name : String} (h : name ≠ "nullable") :
    widen (members.erase name) = Assoc.erase (widen members) name := by
  unfold widen
  rw [Assoc.get?_erase, if_neg h]
  split
  · rw [modify_erase, modify_erase]
  · rfl

/-- Dropping a member and making plain commute. -/
theorem normalize_erase (members : Assoc Json) {name : String} (h : name ≠ "nullable") :
    normalize (.object (members.erase name)) =
      .object (Assoc.erase (widen (normalizeMembers members)) name) := by
  have herase : normalizeMembers (members.erase name) =
      Assoc.erase (normalizeMembers members) name := by
    rw [normalizeMembers_eq_map, normalizeMembers_eq_map, Assoc.erase, Assoc.erase, List.filter_map]
    rfl
  rw [normalize, herase, widen_erase _ h]

theorem RequiresNothing.normalize {members : Assoc Json} (h : RequiresNothing members) :
    RequiresNothing (widen (normalizeMembers members)) := by
  obtain ⟨f, hf, hplain⟩ := exists_plain_members members
  intro e he hname
  rw [hf] at he
  obtain ⟨member, hmember, rfl⟩ := List.mem_map.mp he
  obtain ⟨hkey, hmade⟩ := hplain member
  rw [hkey] at hname
  rw [hname, h member hmember hname] at hmade
  exact hmade.eq_normalize (by decide) (by decide)

end Schema

end ApiContract
