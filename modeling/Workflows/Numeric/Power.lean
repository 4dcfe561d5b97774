/-
  Workflows.Numeric.Power — powers of two and of ten.

  Words and doubles are measured in powers of two, decimals in powers of ten; both are natural
  numbers here.
-/
namespace Workflows

/-- `2` to the power of `k`. -/
abbrev pow2 (k : Nat) : Nat := Nat.pow 2 k

/-- `10` to the power of `k`. -/
abbrev pow10 (k : Nat) : Nat := Nat.pow 10 k

end Workflows
