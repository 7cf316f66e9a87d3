/-!
# Bounds

Numbers in documents, options and references fit words of eight, thirty-two or
sixty-four bits.  A bound is the first number that does not fit.
-/

namespace Tollgate.Bound

abbrev byte : Nat := 0x100

abbrev word : Nat := 0x100000000

abbrev longWord : Nat := 0x10000000000000000

end Tollgate.Bound
