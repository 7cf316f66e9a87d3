/-!
# Moments

A moment is a second of Coordinated Universal Time with a fraction of it in
nanoseconds.  During a leap second the fraction runs on past one second.
-/

namespace Tollgate

structure Moment where
  second : Int
  nano : Nat := 0
  inSecond : nano < 2000000000 := by decide
  deriving DecidableEq, Repr

namespace Moment

instance : Inhabited Moment := ⟨{ second := 0 }⟩

def addSeconds (moment : Moment) (seconds : Int) : Moment :=
  { moment with second := moment.second + seconds }

def addHours (moment : Moment) (hours : Nat) : Moment :=
  moment.addSeconds (hours * 3600)

def ofMillis (millis : Int) : Moment where
  second := millis / 1000
  nano := (millis % 1000).toNat * 1000000
  inSecond := by omega

def addMillis (moment : Moment) (millis : Nat) : Moment :=
  let nanos := moment.nano + millis % 1000 * 1000000
  { second := moment.second + (millis / 1000 : Nat) + (nanos / 1000000000 : Nat)
    nano := nanos % 1000000000
    inSecond := Nat.lt_of_lt_of_le (Nat.mod_lt _ (by decide)) (by decide) }

def nanos (moment : Moment) : Int := moment.second * 1000000000 + moment.nano

def millisBetween (start finish : Moment) : Int :=
  Int.tdiv (finish.nanos - start.nanos) (1000000)

end Moment

end Tollgate
