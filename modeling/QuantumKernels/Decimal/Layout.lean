import QuantumKernels.Decimal.Shortest
/-!
How a binary64 value is written. A `Layout` holds the decisions of one format; `Layout.render`
lays the shortest digits out accordingly.
-/

namespace QuantumKernels.Decimal

/-- The decisions of a number format. -/
structure Layout where
  /-- whether a number whose leading digit stands at this power of ten is written positionally -/
  positional : Int → Bool
  /-- whether a whole number keeps `.0` -/
  pointZero : Bool
  /-- whether a positive exponent carries its sign -/
  plus : Bool
  tie : Tie

/-- Numbers in running text: positional at every size, whole numbers without a point. -/
def Layout.plain : Layout := ⟨fun _ => true, false, false, .upward⟩

/-- Numbers in descriptions of values: never without a point or an exponent. -/
def Layout.described : Layout := ⟨fun e => -5 ≤ e && e < 16, true, false, .upward⟩

/-- Numbers in stored documents: as in descriptions, with a signed exponent. -/
def Layout.stored : Layout := ⟨fun e => -5 ≤ e && e < 16, true, true, .toEven⟩

/-- Digits with the point `places` digits from the right, or zeros appended when it lies beyond. -/
def positionalDigits (digits : String) (exponent : Int) (pointZero : Bool) : String :=
  let whole := digits.length + exponent
  if 0 ≤ exponent then
    digits ++ "".pushn '0' exponent.toNat ++ if pointZero then ".0" else ""
  else if 0 < whole then
    String.ofList (digits.toList.take whole.toNat) ++ "." ++ String.ofList (digits.toList.drop whole.toNat)
  else "0." ++ "".pushn '0' (-whole).toNat ++ digits

/-- One digit, the point, the other digits, and the exponent of the first. -/
def exponentDigits (digits : String) (lead : Int) (plus : Bool) : String :=
  let fraction := String.ofList (digits.toList.drop 1)
  String.ofList (digits.toList.take 1) ++ (if fraction.isEmpty then "" else "." ++ fraction)
    ++ "e" ++ (if plus && 0 ≤ lead then "+" else "") ++ toString lead

def Layout.magnitude (layout : Layout) (d : Decimal) : String :=
  let digits := toString d.coefficient
  let lead := digits.length + d.exponent - 1
  if d.coefficient = 0 || layout.positional lead then
    positionalDigits digits d.exponent layout.pointZero
  else exponentDigits digits lead layout.plus

/-- The text of a value: sign, then magnitude; a value that is no number has a name and no sign. -/
def Layout.render (layout : Layout) (x : Float) : String :=
  if x.isNaN then "NaN"
  else
    let sign := if x.toBits >>> 63 = 1 then "-" else ""
    if x.isInf then sign ++ "inf" else sign ++ layout.magnitude (shortest layout.tie x.toBits)

end QuantumKernels.Decimal
