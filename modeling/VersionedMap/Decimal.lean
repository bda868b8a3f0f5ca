namespace VersionedMap.Decimal

def leastNormal : Nat := Nat.pow 2 52

def significand (bits : UInt64) : Nat × Int :=
  let fraction := bits.toNat % leastNormal
  let exponent := bits.toNat / leastNormal % 2048
  if exponent = 0 then (fraction, -1074) else (fraction + leastNormal, exponent - 1075)

/-- A positive rational `value / scale` with the ends of its rounding interval over the same scale: each
decimal in the interval reads back as that number. The ends belong to it when it is closed. -/
structure Interval where
  low : Nat
  value : Nat
  high : Nat
  scale : Nat
  closed : Bool

def Interval.ofBinary (m : Nat) (q : Int) : Interval where
  low := (4 * m - if m = leastNormal ∧ -1074 < q then 1 else 2) * Nat.pow 2 q.toNat
  value := 4 * m * Nat.pow 2 q.toNat
  high := (4 * m + 2) * Nat.pow 2 q.toNat
  scale := 4 * Nat.pow 2 (-q).toNat
  closed := m % 2 = 0

def Interval.covers (i : Interval) (c : Nat) (e : Int) : Bool :=
  let point := c * Nat.pow 10 e.toNat * i.scale
  let factor := Nat.pow 10 (-e).toNat
  if i.closed then i.low * factor ≤ point && point ≤ i.high * factor
  else i.low * factor < point && point < i.high * factor

/-- The multiple of `10 ^ e` in the interval that is nearest to the value; of two equally near the
even one. Only the two neighbours of the value need a look. -/
def Interval.onGrid? (i : Interval) (e : Int) : Option Nat :=
  let value := i.value * Nat.pow 10 (-e).toNat
  let unit := i.scale * Nat.pow 10 e.toNat
  let below := value / unit
  match i.covers below e, i.covers (below + 1) e with
  | true, true =>
    let twice := 2 * (value % unit)
    some (if twice < unit ∨ (twice = unit ∧ below % 2 = 0) then below else below + 1)
  | true, false => some below
  | false, true => some (below + 1)
  | false, false => none

def Interval.magnitude (i : Interval) : Int :=
  let whole := i.value / i.scale
  if 0 < whole then
    (Nat.toDigits 10 whole).length
  else
    match (List.range 400).find? fun j => i.scale ≤ i.value * Nat.pow 10 (j + 1) with
    | some j => -j
    | none => -400

/-- The fewest decimal digits, and the power of ten they are multiplied by, that read back as
`m * 2 ^ q`, and among those the nearest to it. The coarsest grid is the power of ten above the value,
and seventeen digits always suffice. -/
def shortest (m : Nat) (q : Int) : Nat × Int :=
  let i := Interval.ofBinary m q
  let grids := (List.range 18).map fun (n : Nat) => i.magnitude - n
  match grids.findSome? fun e => (i.onGrid? e).map fun c => (c, e) with
  | some found => found
  | none => (0, 0)

end VersionedMap.Decimal
