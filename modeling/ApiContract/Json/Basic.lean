import ApiContract.Assoc
import ApiContract.Json.Number
/-!
# JSON values

Objects are maps with ascending keys, so a value has one representation whatever the order its
members were written in, and every walk over an object is in key order.

Three notions of equality are needed: identity (`=`), identity up to the sign of zero (`same`),
and equality of what the numbers mean (`equal`), for which `1` and `1.0` are equal.
-/

namespace ApiContract

/-- A JSON value. -/
inductive Json where
  | null
  | bool (value : Bool)
  | number (value : Number)
  | string (value : String)
  | array (items : List Json)
  | object (members : List (String × Json))
deriving Repr

namespace Json

instance : Inhabited Json := ⟨.null⟩

/-- A whole number. -/
def int (n : Int) : Json := .number (.int n)

/-- The object with the given members, in any order; of two with one key the later stays. -/
def ofMembers (members : List (String × Json)) : Json := .object (Assoc.ofList members)

/-! ## Parts of a value -/

def asObject? : Json → Option (Assoc Json)
  | .object members => some members
  | _ => none

def asArray? : Json → Option (List Json)
  | .array items => some items
  | _ => none

def asString? : Json → Option String
  | .string s => some s
  | _ => none

def asBool? : Json → Option Bool
  | .bool b => some b
  | _ => none

/-- The member of an object under a key; other values have no members. -/
def member? (v : Json) (key : String) : Option Json := v.asObject?.bind (Assoc.get? · key)

def isNull : Json → Bool
  | .null => true
  | _ => false

/-! ## Comparison -/

mutual

/-- Compare two values member by member, with numbers compared by `rel`. -/
def matchesBy (rel : Number → Number → Bool) : Json → Json → Bool
  | .null, .null => true
  | .bool a, .bool b => a == b
  | .number a, .number b => rel a b
  | .string a, .string b => a == b
  | .array a, .array b => itemsMatchBy rel a b
  | .object a, .object b => membersMatchBy rel a b
  | _, _ => false

def itemsMatchBy (rel : Number → Number → Bool) : List Json → List Json → Bool
  | [], [] => true
  | a :: as, b :: bs => matchesBy rel a b && itemsMatchBy rel as bs
  | _, _ => false

def membersMatchBy (rel : Number → Number → Bool) :
    List (String × Json) → List (String × Json) → Bool
  | [], [] => true
  | (k, a) :: as, (l, b) :: bs => k == l && matchesBy rel a b && membersMatchBy rel as bs
  | _, _ => false

end

/-- Whether two values are identical, except that zeros of either sign are one number. -/
def same : Json → Json → Bool := matchesBy Number.same

/-- Whether two values are equal when every number is taken for what it means. -/
def equal : Json → Json → Bool := matchesBy Number.equal

instance : BEq Json := ⟨matchesBy fun m n => decide (m = n)⟩

mutual

theorem matchesBy_self {rel : Number → Number → Bool} (h : ∀ n, rel n n = true) :
    (a : Json) → matchesBy rel a a = true
  | .null => rfl
  | .bool _ => by simp [matchesBy]
  | .number n => by simp [matchesBy, h n]
  | .string _ => by simp [matchesBy]
  | .array a => by simp [matchesBy, itemsMatchBy_self h a]
  | .object a => by simp [matchesBy, membersMatchBy_self h a]

theorem itemsMatchBy_self {rel : Number → Number → Bool} (h : ∀ n, rel n n = true) :
    (as : List Json) → itemsMatchBy rel as as = true
  | [] => rfl
  | a :: as => by simp [itemsMatchBy, matchesBy_self h a, itemsMatchBy_self h as]

theorem membersMatchBy_self {rel : Number → Number → Bool} (h : ∀ n, rel n n = true) :
    (as : List (String × Json)) → membersMatchBy rel as as = true
  | [] => rfl
  | (_, a) :: as => by simp [membersMatchBy, matchesBy_self h a, membersMatchBy_self h as]

end

mutual

private theorem eq_of_matchesBy :
    (a b : Json) → matchesBy (fun m n => decide (m = n)) a b = true → a = b
  | .null, b, h => by cases b <;> simp_all [matchesBy]
  | .bool _, b, h => by cases b <;> simp_all [matchesBy]
  | .number _, b, h => by cases b <;> simp_all [matchesBy]
  | .string _, b, h => by cases b <;> simp_all [matchesBy]
  | .array as, b, h => by
    cases b <;> simp only [matchesBy, Bool.false_eq_true] at h
    rw [eq_of_itemsMatchBy as _ h]
  | .object as, b, h => by
    cases b <;> simp only [matchesBy, Bool.false_eq_true] at h
    rw [eq_of_membersMatchBy as _ h]

private theorem eq_of_itemsMatchBy :
    (as bs : List Json) → itemsMatchBy (fun m n => decide (m = n)) as bs = true → as = bs
  | [], bs, h => by cases bs <;> simp_all [itemsMatchBy]
  | a :: as, bs, h => by
    cases bs with
    | nil => simp [itemsMatchBy] at h
    | cons b bs =>
      simp only [itemsMatchBy, Bool.and_eq_true] at h
      rw [eq_of_matchesBy a b h.1, eq_of_itemsMatchBy as bs h.2]

private theorem eq_of_membersMatchBy :
    (as bs : List (String × Json)) →
      membersMatchBy (fun m n => decide (m = n)) as bs = true → as = bs
  | [], bs, h => by cases bs <;> simp_all [membersMatchBy]
  | (k, a) :: as, bs, h => by
    cases bs with
    | nil => simp [membersMatchBy] at h
    | cons b bs =>
      obtain ⟨l, b⟩ := b
      simp only [membersMatchBy, Bool.and_eq_true, beq_iff_eq] at h
      rw [h.1.1, eq_of_matchesBy a b h.1.2, eq_of_membersMatchBy as bs h.2]

end

instance : LawfulBEq Json where
  rfl := matchesBy_self (by simp) _
  eq_of_beq := eq_of_matchesBy _ _

instance : DecidableEq Json := instDecidableEqOfLawfulBEq

end Json

end ApiContract
