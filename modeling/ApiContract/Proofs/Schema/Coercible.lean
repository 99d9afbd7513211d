import ApiContract.Proofs.Parameter.Coercion
import ApiContract.Proofs.Schema.Keywords
/-!
# Coercion and what a schema accepts

Coercion looks at a schema through its kinds and the schema of its items, after one reference; judging
applies every keyword to the nullable schema made plain. Where the two read a schema alike, coercion
leaves every value that the schema accepts: a text is converted only when the kinds have no room
for texts.
-/

namespace ApiContract

namespace Coercion

open Schema

/-! ## Two readings of a schema -/

/-- Whether coercion, for which a schema resolves to another one, reads it as it is judged in the
document of a whole schema. -/
structure ReadsAlike (x : Compiler) (whole schema resolved : Json) : Prop where
  /-- A reference leads to one place. -/
  reference : ∀ t, Contract.referenceOf? schema = some t →
    resolveReference (x.document whole) t = .ok (Schema.normalize resolved)
  /-- It does not lead to a reference beside which nothing counts. -/
  single : x.dialect = .draft4 → resolved.member? "$ref" = none
  /-- Where null is allowed, kinds are named. -/
  typed : resolved.member? "nullable" = some (.bool true) →
    (resolved.member? "type").isSome = true
  /-- Items that are coerced are not those behind a tuple. -/
  untupled : x.dialect = .draft2020 → (itemsOf? resolved (kindsOf resolved)).isSome = true →
    resolved.member? "prefixItems" = none

/-- The schemas that coercion meets on its way through a value. -/
inductive Meets (c : Contract) : Json → Json → Prop where
  | self {schema : Json} : Meets c schema schema
  | items {schema resolved each met : Json} (hresolve : c.resolve schema = .ok resolved)
      (hitems : itemsOf? resolved (kindsOf resolved) = some each) (h : Meets c each met) :
      Meets c schema met

/-- Whether each schema that coercion meets is read alike. -/
def ReadsAlikeThroughout (c : Contract) (x : Compiler) (whole schema : Json) : Prop :=
  ∀ met resolved, Meets c schema met → c.resolve met = .ok resolved →
    ReadsAlike x whole met resolved

/-- Reading alike goes level by level. -/
theorem readsAlikeThroughout_iff {c : Contract} {x : Compiler} {whole schema : Json} :
    ReadsAlikeThroughout c x whole schema ↔
      ∀ resolved, c.resolve schema = .ok resolved → ReadsAlike x whole schema resolved ∧
        ∀ each, itemsOf? resolved (kindsOf resolved) = some each →
          ReadsAlikeThroughout c x whole each := by
  constructor
  · intro h resolved hresolve
    exact ⟨h schema resolved .self hresolve, fun each hitems met resolved' hmet =>
      h met resolved' (.items hresolve hitems hmet)⟩
  · intro h met resolved' hmet hresolve'
    cases hmet with
    | self => exact (h resolved' hresolve').1
    | items hresolve hitems hmet => exact (h _ hresolve).2 _ hitems met resolved' hmet hresolve'

/-! ## Schemas without members -/

theorem member?_of_not_shaped {schema : Json} (h : ¬ Shaped schema) (word : String) :
    schema.member? word = none := by
  cases schema with
  | object members => exact absurd (Or.inl ⟨members, rfl⟩) h
  | _ => rfl

/-- What is no schema coerces nothing. -/
theorem value_of_not_shaped {schema : Json} (h : ¬ Shaped schema) (c : Contract) (v : Json) :
    value c v schema = v := by
  have hresolve : c.resolve schema = .ok schema := by
    unfold Contract.resolve Contract.referenceOf?
    rw [member?_of_not_shaped h]
    rfl
  have hkinds : kindsOf schema = [] := by
    unfold kindsOf
    rw [member?_of_not_shaped h, member?_of_not_shaped h]
    rfl
  unfold value
  rw [hresolve]
  cases v with
  | array items => simp only [itemsOf?, hkinds, List.contains_nil, Bool.false_eq_true, if_false]
  | string raw => simp only [scalar?, hkinds, List.findSome?_nil]; rfl
  | _ => rfl

/-! ## What is accepted -/

section

variable {x : Compiler} {whole schema resolved each : Json} {m : Meaning} {p : Place}

theorem eq_string_of_has {d : Dialect} {kind : Kind} {raw : String}
    (h : kind.has d (.string raw) = true) : kind = .string := by
  cases kind <;> simp [Kind.has] at h ⊢

/-- A text that is accepted does not convert. -/
theorem scalar?_eq_none_of_accepted {raw : String} (h : ReadsAlike x whole schema resolved)
    (ha : (judge m p (.string raw) (x.reading resolved)).accepted = true) :
    scalar? raw (kindsOf resolved) = none := by
  cases htype : resolved.member? "type" with
  | none =>
    have hkinds : kindsOf resolved = [] := by
      have hnull : resolved.member? "nullable" ≠ some (.bool true) := by
        intro hnull
        have hsome := h.typed hnull
        rw [htype] at hsome
        cases hsome
      unfold kindsOf
      rw [htype, if_neg hnull]
    rw [hkinds]
    rfl
  | some written =>
    obtain ⟨kinds, hkeyword, hdeclares⟩ :=
      Compiler.exists_hasKeyword_type h.single (by rw [htype]; rfl)
    obtain ⟨covered, hcovered⟩ := hkeyword.accepted ha
    rw [judgeKeyword, accepted_check, List.any_eq_true] at hcovered
    obtain ⟨kind, hkind, hhas⟩ := hcovered
    obtain rfl := eq_string_of_has hhas
    have hmem := mem_kindsOf_iff.mpr (Or.inl (hdeclares hkind))
    rw [scalar?, if_pos (List.contains_iff_mem.mpr hmem)]

/-- The items of an array are judged by the schema that coerces them. -/
theorem hasKeyword_items (h : ReadsAlike x whole schema resolved)
    (hitems : itemsOf? resolved (kindsOf resolved) = some each) (hshape : Shaped each) :
    HasKeyword (x.reading resolved) (.items 0 (x.reading each)) := by
  have hmember : resolved.member? "items" = some each := by
    unfold itemsOf? at hitems
    split at hitems
    · exact hitems
    · cases hitems
  exact Compiler.hasKeyword_items h.single (fun hd => h.untupled hd (by rw [hitems]; rfl)) hmember
    hshape

end

/-! ## Following references -/

section

variable {k : Contract} {x : Compiler} {whole schema resolved : Json} {c : Compiled}

/-- **What a schema accepts, what it resolves to accepts.** Following its reference costs one step
of fuel. -/
theorem exists_judge_resolved (hsettled : ∀ t s, c.definitions.get? t = some s →
      Settled x.dialect x.formats (x.document whole) c.definitions t s)
    (hresolve : k.resolve schema = .ok resolved) (h : ReadsAlike x whole schema resolved)
    (hdefined : c.Defines (x.reading schema)) {fuel : Nat} {p : Place} {v : Json}
    (ha : (judge (c.meaning (fuel + 1)) p v (x.reading schema)).accepted = true) :
    c.Defines (x.reading resolved) ∧ ∃ m p' fuel', fuel ≤ fuel' ∧
      m.inside = c.meaning fuel' ∧ (judge m p' v (x.reading resolved)).accepted = true := by
  cases href : Contract.referenceOf? schema with
  | none =>
    obtain rfl : schema = resolved := by
      unfold Contract.resolve at hresolve
      rw [href] at hresolve
      exact Except.ok.inj hresolve
    exact ⟨hdefined, c.meaning (fuel + 1), p, fuel + 1, Nat.le_succ fuel, rfl, ha⟩
  | some t =>
    have hkeyword : HasKeyword (x.reading schema) (.reference t) :=
      Compiler.hasKeyword_referenceOf href
    have ht : c.definitions.contains t = true :=
      hdefined t (hkeyword.targets (List.mem_singleton.mpr rfl))
    obtain ⟨s, hs⟩ := Option.isSome_iff_exists.mp ht
    obtain ⟨target, htarget, -, hread, hinner⟩ := hsettled t s hs
    -- the definition was read where coercion goes
    obtain rfl := Except.ok.inj (htarget.symm.trans (h.reference t href))
    have hs' : s = x.reading resolved := hread
    subst hs'
    refine ⟨fun u hu => hinner u (reference_mem_events hu), ?_⟩
    obtain ⟨covered, hcovered⟩ := hkeyword.accepted ha
    rw [judgeKeyword, accepted_inPlace] at hcovered
    refine ⟨⟨c.dialect, c.follow fuel [t], c.follow fuel []⟩, p.under "$ref", fuel, Nat.le_refl _,
      rfl, ?_⟩
    have hfollow : (c.meaning (fuel + 1)).here t (p.under "$ref") v =
        judge ⟨c.dialect, c.follow fuel [t], c.follow fuel []⟩ (p.under "$ref") v
          (x.reading resolved) := by
      show c.follow (fuel + 1) [] t (p.under "$ref") v = _
      rw [Compiled.follow, hs]
      rfl
    rw [← hfollow]
    exact hcovered

/-- **Coercion leaves what is accepted**, by induction on a bound for the depth of the value. -/
theorem value_eq_self_of_depth_lt (hsettled : ∀ t s, c.definitions.get? t = some s →
      Settled x.dialect x.formats (x.document whole) c.definitions t s) (n : Nat) :
    ∀ (v schema : Json) (fuel : Nat) (p : Place), depth v < n → n ≤ fuel →
      ReadsAlikeThroughout k x whole schema → c.Defines (x.reading schema) →
      (judge (c.meaning fuel) p v (x.reading schema)).accepted = true →
        value k v schema = v := by
  induction n with
  | zero => intro _ _ _ _ hdepth; exact absurd hdepth (Nat.not_lt_zero _)
  | succ n ih =>
    intro v schema fuel p hdepth hfuel halike hdefined ha
    obtain ⟨fuel, rfl⟩ : ∃ fuel', fuel = fuel' + 1 := ⟨fuel - 1, by omega⟩
    unfold value
    cases hresolve : k.resolve schema with
    | error f => rfl
    | ok resolved =>
      obtain ⟨hread, hdeeper⟩ := readsAlikeThroughout_iff.mp halike resolved hresolve
      obtain ⟨hdefined', m, p', fuel', hle, hinside, ha'⟩ :=
        exists_judge_resolved hsettled hresolve hread hdefined ha
      cases v with
      | string raw => simp only [scalar?_eq_none_of_accepted hread ha', Option.getD_none]
      | array items =>
        simp only
        cases hitems : itemsOf? resolved (kindsOf resolved) with
        | none => rfl
        | some each =>
          simp only [values_eq_map, Json.array.injEq]
          refine (List.map_congr_left fun w hw => ?_).trans (List.map_id items)
          by_cases hshape : Shaped each
          · have hkeyword := hasKeyword_items hread hitems hshape
            obtain ⟨covered, hcovered⟩ := hkeyword.accepted ha'
            obtain ⟨p'', hw'⟩ := accepted_of_mem_items hcovered hw
            rw [hinside] at hw'
            have hlt := depth_lt_of_mem_array hw
            exact ih w each fuel' p'' (by omega) (by omega) (hdeeper each hitems)
              (fun t ht => hdefined' t (hkeyword.targets ht)) hw'
          · exact value_of_not_shaped hshape k w
      | _ => rfl

/-- **What a part of a document accepts stays as it is**, where the two readings are alike. -/
theorem value_eq_self {route : String} {members : Assoc Json} {part v : Json}
    (hc : x.compile whole route = .ok c) (hwhole : Schema.normalize whole = .object members)
    (hpart : Inside x.dialect x.formats (.object members) (Schema.normalize part))
    (halike : ReadsAlikeThroughout k x whole part) (ha : x.AcceptsWithin whole part route v) :
    value k v part = v := by
  obtain ⟨c', hc', ha⟩ := ha
  obtain rfl : c' = c := Except.ok.inj (hc'.symm.trans hc)
  have hfuel : depth v + 1 ≤ (c'.startingAt (x.reading part)).followBound v :=
    Nat.le_trans (Nat.le_succ _) (Nat.le_mul_of_pos_left _ (Nat.succ_pos _))
  have hdefined : (c'.startingAt (x.reading part)).Defines (x.reading part) :=
    fun t ht => Compiler.defines_of_inside hc hwhole hpart t ht
  have hsettled : ∀ t s, (c'.startingAt (x.reading part)).definitions.get? t = some s →
      Settled x.dialect x.formats (x.document whole)
        (c'.startingAt (x.reading part)).definitions t s :=
    (Compiler.linked_of_compile hc).settled
  exact value_eq_self_of_depth_lt hsettled (depth v + 1) v part _ .root (Nat.lt_succ_self _) hfuel
    halike hdefined ha

end

end Coercion

end ApiContract
