/-!
# Powers of two and ten

The bases in which floats are held and decimals are written.
-/

namespace Tollgate.Decimal

def twoTo (n : Nat) : Nat := Nat.pow 2 n

def tenTo (n : Nat) : Nat := Nat.pow 10 n

end Tollgate.Decimal
