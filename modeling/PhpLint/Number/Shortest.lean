import PhpLint.Number.Binary64

/-! The shortest decimal that reads back as a given number, written without an exponent. -/
namespace PhpLint.Binary64

/-- The numbers from which a finite one is the closest lie between these. -/
def interval (m : Nat) (e : Int) : Rat × Rat :=
  let value := m * (2 : Rat) ^ e
  let half := (2 : Rat) ^ (e - 1)
  let narrow := m == mantissaBound / 2 && minExponent < e
  (value - (if narrow then half / 2 else half), value + half)

/-- Whether a number reads as `m * 2 ^ e`; the ends of the interval go to even mantissas. -/
def readsAs (m : Nat) (e : Int) (x : Rat) : Bool :=
  let (low, high) := interval m e
  if m % 2 == 0 then low ≤ x && x ≤ high else low < x && x < high

/-- Number of digits in front of the point; less than one if zeros follow the point. -/
def leadingDigits (x : Rat) : Int :=
  if 1 ≤ x then digitCount x.floor.toNat
  else
    let zeros := (List.range 400).find? fun j => 1 ≤ x * (10 : Rat) ^ j
    1 - (zeros.getD 0 : Nat)

/-- The closest multiple of `10 ^ k` that reads back, if one does; a tie goes up. -/
def onGrid? (m : Nat) (e k : Int) : Option Nat :=
  let x := m * (2 : Rat) ^ e / (10 : Rat) ^ k
  let below := x.floor.toNat
  let reads (d : Nat) : Bool := readsAs m e (d * (10 : Rat) ^ k)
  match reads below, reads (below + 1) with
  | false, false => none
  | true, false => some below
  | false, true => some (below + 1)
  | true, true => some (if x - below < 1 / 2 then below else below + 1)

/-- The fewest digits that read back, and the power of ten that they count. Seventeen suffice. -/
def shortest (m : Nat) (e : Int) : Nat × Int :=
  let p := leadingDigits (m * (2 : Rat) ^ e)
  let grids := (List.range 18).map fun (n : Nat) => p - n
  (grids.findSome? fun k => (onGrid? m e k).map (·, k)).getD (m, e)

def zeros (n : Nat) : List Char :=
  List.replicate n '0'

/-- The number `digits * 10 ^ k` without an exponent, with a point only where it has to be. -/
def positional (digits : Nat) (k : Int) : String :=
  let ds := Nat.toDigits 10 digits
  let places := (-k).toNat
  String.ofList <|
    if places == 0 then ds ++ zeros k.toNat
    else
      let ds := zeros (places + 1 - ds.length) ++ ds
      ds.take (ds.length - places) ++ '.' :: ds.drop (ds.length - places)

end PhpLint.Binary64
