/-!
# Powers

The powers of two and of ten that bound and scale numbers.
-/

namespace ApiContract

/-- Two to the `k`. -/
def pow2 (k : Nat) : Nat := Nat.pow 2 k

/-- Ten to the `k`. -/
def pow10 (k : Nat) : Nat := Nat.pow 10 k

end ApiContract
