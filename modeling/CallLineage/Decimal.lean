/-! Decimal numbers as digits and an exponent, and where they leave the range of doubles. -/
namespace CallLineage.Decimal

def value (ds : List Char) : Nat := ds.foldl (fun n d => n * 10 + (d.toNat - '0'.toNat)) 0

/-- Numbers from here on round to no finite double. -/
def bound : Nat := Nat.pow 2 1024 - Nat.pow 2 970

/-- Whether the digits times ten to the exponent lie beyond the doubles. Far from the bound the exponent decides. -/
def isHuge (digits : List Char) (exponent : Int) : Bool :=
  let m := value digits
  if m == 0 || exponent + digits.length ≤ 0 then false
  else if 400 < exponent then true
  else if 0 ≤ exponent then bound ≤ m * Nat.pow 10 exponent.toNat
  else bound * Nat.pow 10 (-exponent).toNat ≤ m

end CallLineage.Decimal
