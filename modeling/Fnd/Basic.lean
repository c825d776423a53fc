/-
  Fnd.Basic — what every package of the daemon shares: byte strings, clock readings,
  and how a Go call ends.

  A Go string is its bytes. A `time.Time` is its nanoseconds since 1970 (`Int`: the zero
  time lies far before). A call that can fail returns `Except (Fault ε) α`: an error
  value, or a panic, which takes the process down.
-/

namespace Fnd

abbrev Bytes := List UInt8

abbrev Name := Bytes

/-- A string literal of the source. -/
def utf8 (s : String) : Bytes := s.toUTF8.data.toList

/-! ## Time -/

abbrev Time := Int

def second : Int := 1000000000

def week : Int := 7 * 24 * 3600 * second

/-- `time.Time{}`: 1 January of year 1. -/
def zeroTime : Time := -62135596800 * second

/-- `Time.Unix`: whole seconds since 1970, rounded down. -/
def unix (t : Time) : Int := t / second

/-! ## Failures -/

inductive Fault (ε : Type) where
  | err (e : ε)
  | panic
  deriving DecidableEq, Repr

def Fault.isPanic {ε : Type} : Fault ε → Bool
  | .err _ => false
  | .panic => true

end Fnd
