import ApiContract.Json.Basic
/-!
# Values that are the same

`Json.same` tells two values apart unless they differ in the signs of zeros alone. It is an
equivalence, because the relation on numbers that it is built from is one. Entries of maps are the
same when both are missing or both hold the same value.
-/

namespace ApiContract

namespace Number

theorem same_refl (n : Number) : n.same n = true := by
  cases n <;> simp [same]

theorem same_symm {m n : Number} (h : m.same n = true) : n.same m = true := by
  cases m <;> cases n <;> simp_all [same]

theorem same_trans {m n k : Number} (h : m.same n = true) (h' : n.same k = true) :
    m.same k = true := by
  cases m <;> cases n <;> cases k <;> simp_all [same]

end Number

namespace Json

variable {rel : Number → Number → Bool}

/-! ## An equivalence -/

mutual

theorem matchesBy_symm (h : ∀ {m n}, rel m n = true → rel n m = true) :
    (a b : Json) → matchesBy rel a b = true → matchesBy rel b a = true
  | .null, b, hab => by cases b <;> simp_all [matchesBy]
  | .bool _, b, hab => by cases b <;> simp_all [matchesBy]
  | .number _, b, hab => by cases b <;> simp_all [matchesBy]
  | .string _, b, hab => by cases b <;> simp_all [matchesBy]
  | .array as, b, hab => by
    cases b <;> simp only [matchesBy, Bool.false_eq_true] at hab ⊢
    exact itemsMatchBy_symm h as _ hab
  | .object as, b, hab => by
    cases b <;> simp only [matchesBy, Bool.false_eq_true] at hab ⊢
    exact membersMatchBy_symm h as _ hab

theorem itemsMatchBy_symm (h : ∀ {m n}, rel m n = true → rel n m = true) :
    (as bs : List Json) → itemsMatchBy rel as bs = true → itemsMatchBy rel bs as = true
  | [], bs, hab => by cases bs <;> simp_all [itemsMatchBy]
  | a :: as, bs, hab => by
    cases bs with
    | nil => simp [itemsMatchBy] at hab
    | cons b bs =>
      simp only [itemsMatchBy, Bool.and_eq_true] at hab ⊢
      exact ⟨matchesBy_symm h a b hab.1, itemsMatchBy_symm h as bs hab.2⟩

theorem membersMatchBy_symm (h : ∀ {m n}, rel m n = true → rel n m = true) :
    (as bs : List (String × Json)) →
      membersMatchBy rel as bs = true → membersMatchBy rel bs as = true
  | [], bs, hab => by cases bs <;> simp_all [membersMatchBy]
  | (k, a) :: as, bs, hab => by
    cases bs with
    | nil => simp [membersMatchBy] at hab
    | cons b bs =>
      obtain ⟨l, b⟩ := b
      simp only [membersMatchBy, Bool.and_eq_true, beq_iff_eq] at hab ⊢
      exact ⟨⟨hab.1.1.symm, matchesBy_symm h a b hab.1.2⟩, membersMatchBy_symm h as bs hab.2⟩

end

mutual

theorem matchesBy_trans (h : ∀ {m n k}, rel m n = true → rel n k = true → rel m k = true) :
    (a b c : Json) → matchesBy rel a b = true → matchesBy rel b c = true →
      matchesBy rel a c = true
  | .null, b, c, hab, hbc => by cases b <;> cases c <;> simp_all [matchesBy]
  | .bool _, b, c, hab, hbc => by cases b <;> cases c <;> simp_all [matchesBy]
  | .number _, b, c, hab, hbc => by
    cases b <;> cases c <;> simp only [matchesBy, Bool.false_eq_true] at hab hbc ⊢
    exact h hab hbc
  | .string _, b, c, hab, hbc => by cases b <;> cases c <;> simp_all [matchesBy]
  | .array as, b, c, hab, hbc => by
    cases b <;> cases c <;> simp only [matchesBy, Bool.false_eq_true] at hab hbc ⊢
    exact itemsMatchBy_trans h as _ _ hab hbc
  | .object as, b, c, hab, hbc => by
    cases b <;> cases c <;> simp only [matchesBy, Bool.false_eq_true] at hab hbc ⊢
    exact membersMatchBy_trans h as _ _ hab hbc

theorem itemsMatchBy_trans (h : ∀ {m n k}, rel m n = true → rel n k = true → rel m k = true) :
    (as bs cs : List Json) → itemsMatchBy rel as bs = true → itemsMatchBy rel bs cs = true →
      itemsMatchBy rel as cs = true
  | [], bs, cs, hab, hbc => by cases bs <;> cases cs <;> simp_all [itemsMatchBy]
  | a :: as, bs, cs, hab, hbc => by
    cases bs <;> cases cs <;> simp only [itemsMatchBy, Bool.false_eq_true, Bool.and_eq_true]
      at hab hbc ⊢
    exact ⟨matchesBy_trans h a _ _ hab.1 hbc.1, itemsMatchBy_trans h as _ _ hab.2 hbc.2⟩

theorem membersMatchBy_trans (h : ∀ {m n k}, rel m n = true → rel n k = true → rel m k = true) :
    (as bs cs : List (String × Json)) → membersMatchBy rel as bs = true →
      membersMatchBy rel bs cs = true → membersMatchBy rel as cs = true
  | [], bs, cs, hab, hbc => by cases bs <;> cases cs <;> simp_all [membersMatchBy]
  | (k, a) :: as, bs, cs, hab, hbc => by
    cases bs <;> cases cs <;> simp only [membersMatchBy, Bool.false_eq_true, Bool.and_eq_true,
      beq_iff_eq] at hab hbc ⊢
    exact ⟨⟨hab.1.1.trans hbc.1.1, matchesBy_trans h a _ _ hab.1.2 hbc.1.2⟩,
      membersMatchBy_trans h as _ _ hab.2 hbc.2⟩

end

theorem same_refl (v : Json) : v.same v = true := matchesBy_self Number.same_refl v

theorem same_symm {v w : Json} (h : v.same w = true) : w.same v = true :=
  @matchesBy_symm Number.same Number.same_symm v w h

theorem same_trans {u v w : Json} (h : u.same v = true) (h' : v.same w = true) :
    u.same w = true := @matchesBy_trans Number.same Number.same_trans u v w h h'

/-! ## The same entry -/

/-- Entries that are both missing, or hold the same value. -/
def SameEntry : Option Json → Option Json → Prop := Option.Rel fun v w => v.same w = true

namespace SameEntry

theorem refl (a : Option Json) : SameEntry a a := by
  cases a with
  | none => exact .none
  | some v => exact .some (same_refl v)

theorem of_eq {a b : Option Json} (h : a = b) : SameEntry a b := h ▸ refl a

theorem symm {a b : Option Json} (h : SameEntry a b) : SameEntry b a := by
  cases h with
  | none => exact .none
  | some h => exact .some (same_symm h)

theorem trans {a b c : Option Json} (h : SameEntry a b) (h' : SameEntry b c) : SameEntry a c := by
  cases h with
  | none => exact h'
  | some h => cases h' with | some h' => exact .some (same_trans h h')

theorem isSome_eq {a b : Option Json} (h : SameEntry a b) : a.isSome = b.isSome := by
  cases h <;> rfl

/-- The same entries stay so when both values are changed alike. -/
theorem map {f : Json → Json} (hf : ∀ {v w}, v.same w = true → (f v).same (f w) = true)
    {a b : Option Json} (h : SameEntry a b) : SameEntry (a.map f) (b.map f) := by
  cases h with
  | none => exact .none
  | some h => exact .some (hf h)

end SameEntry

end Json

end ApiContract
