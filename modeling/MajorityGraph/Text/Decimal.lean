/-! Decimal text of numbers: right alignment, and doubles rounded to a fixed number of places. -/

-- Powers of naturals are computed by `Nat.pow`, whatever algebraic instances are in scope.
attribute [local instance (1100)] instPowNat

namespace MajorityGraph.Text

/-- Right-aligns text in a column of `width` characters, padding with spaces. -/
def padLeft (width : Nat) (s : String) : String :=
  String.ofList (List.replicate (width - s.length) ' ') ++ s

/-- The quotient `num / den` rounded to the nearest integer, a tie going to the even one. -/
def roundHalfEven (num den : Nat) : Nat :=
  let q := num / den
  let r := num % den
  if 2 * r > den then q + 1
  else if 2 * r == den && q % 2 == 1 then q + 1
  else q

/-- A finite double as an exact fraction `num / den`, with its sign. -/
def exactParts (x : Float) : Bool × Nat × Nat :=
  let bits := x.toBits
  let negative := bits >>> 63 == 1
  let e := ((bits >>> 52) &&& 0x7FF).toNat
  let f := (bits &&& 0xFFFFFFFFFFFFF).toNat
  let (m, shift) : Nat × Int :=
    if e == 0 then (f, -1074) else (f + 2 ^ (52 : Nat), (e : Int) - 1075)
  if shift ≥ 0 then (negative, m * 2 ^ shift.toNat, 1) else (negative, m, 2 ^ (-shift).toNat)

/-- A finite double with `places` digits after the point, rounded from its exact value with
ties to even. -/
def fixed (places : Nat) (x : Float) : String :=
  let (negative, num, den) := exactParts x
  let scale := 10 ^ places
  let n := roundHalfEven (num * scale) den
  let whole := toString (n / scale)
  let frac := toString (n % scale)
  let frac := String.ofList (List.replicate (places - frac.length) '0') ++ frac
  let body := if places == 0 then whole else whole ++ "." ++ frac
  if negative && n != 0 then "-" ++ body else body

/-- The ratio of two counts as a double with two places. -/
def ratio2 (num den : Nat) : String := fixed 2 (num.toFloat / den.toFloat)

end MajorityGraph.Text
