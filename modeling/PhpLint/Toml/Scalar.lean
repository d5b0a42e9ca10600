import PhpLint.Text.Ascii
import PhpLint.Text.Hex
import PhpLint.Toml.Basic

/-!
Reading of TOML texts, numbers and dates. Every reader answers a value and the number of characters
that it takes from the front.
-/
namespace PhpLint.Toml

/-! ### Texts -/

/-- Characters that stand for themselves in texts and comments. -/
def isPlain (c : Char) : Bool :=
  c == '\t' || (0x20 ≤ c.toNat && c != '\x7f')

/-- Number of characters of a line break at the front; 0 if there is none. -/
def breakLength : List Char → Nat
  | '\n' :: _ => 1
  | '\r' :: '\n' :: _ => 2
  | _ => 0

/-- The character that digits number. -/
def numbered? (digits : List Char) : Option Char := do
  let n ← Text.hexNumber? digits
  if n.isValidChar then some (Char.ofNat n) else none

/-- The character that an escape behind its backslash stands for. -/
def escape? : List Char → Option (Char × Nat)
  | 'b' :: _ => some ('\x08', 1)
  | 't' :: _ => some ('\t', 1)
  | 'n' :: _ => some ('\n', 1)
  | 'f' :: _ => some ('\x0c', 1)
  | 'r' :: _ => some ('\r', 1)
  | '"' :: _ => some ('"', 1)
  | '\\' :: _ => some ('\\', 1)
  | 'u' :: r => if r.length < 4 then none else (numbered? (r.take 4)).map (·, 5)
  | 'U' :: r => if r.length < 8 then none else (numbered? (r.take 8)).map (·, 9)
  | _ => none

/-- The text up to a double quote; `done` is what has been read, in reverse order. -/
def basicFrom (done : List Char) (n : Nat) : List Char → Option (String × Nat)
  | [] => none
  | c :: r =>
    if c == '"' then some (String.ofList done.reverse, n + 1)
    else if c == '\\' then
      match escape? r with
      | some (e, k) => basicFrom (e :: done) (n + 1 + k) (r.drop k)
      | none => none
    else if isPlain c then basicFrom (c :: done) (n + 1) r
    else none
termination_by s => s.length
decreasing_by all_goals simp only [List.length_drop, List.length_cons]; omega

/-- The text up to a single quote. -/
def literalFrom (s : List Char) : Option (String × Nat) :=
  let text := s.takeWhile fun c => isPlain c && c != '\''
  if s[text.length]? == some '\'' then some (String.ofList text, text.length + 1) else none

/-- Number of blanks and line breaks at the front. -/
def skipLength (n : Nat) : List Char → Nat
  | '\r' :: '\n' :: r => skipLength (n + 2) r
  | c :: r => if Text.isTabOrSpace c || c == '\n' then skipLength (n + 1) r else n
  | [] => n

/-- What a backslash at the end of a line skips: the line break and all blanks and breaks after. -/
def lineEndLength (s : List Char) : Nat :=
  let blanks := (s.takeWhile Text.isTabOrSpace).length
  if breakLength (s.drop blanks) == 0 then 0 else skipLength 0 s

/-- The text up to three quotes. One or two quotes in front of them belong to the text. -/
def longFrom (quoteMark : Char) (done : List Char) (n : Nat) : List Char → Option (String × Nat)
  | [] => none
  | c :: r =>
    if c == quoteMark then
      let run := 1 + (r.takeWhile (· == quoteMark)).length
      let kept := List.replicate (if run < 3 then run else run - 3) quoteMark
      if run < 3 then longFrom quoteMark (kept ++ done) (n + run) (r.drop (run - 1))
      else if run ≤ 5 then some (String.ofList (kept ++ done).reverse, n + run)
      else none
    else if c == '\\' && quoteMark == '"' then
      match lineEndLength r, escape? r with
      | 0, some (e, k) => longFrom quoteMark (e :: done) (n + 1 + k) (r.drop k)
      | 0, none => none
      | k, _ => longFrom quoteMark done (n + 1 + k) (r.drop k)
    else if isPlain c then longFrom quoteMark (c :: done) (n + 1) r
    else
      match breakLength (c :: r) with
      | 0 => none
      | k => longFrom quoteMark ('\n' :: done) (n + k) (r.drop (k - 1))
termination_by s => s.length
decreasing_by all_goals simp only [List.length_drop, List.length_cons]; omega

/-- A text in any of the four kinds of quotes. -/
def text? (s : List Char) : Option (String × Nat) :=
  match s with
  | a :: b :: c :: r =>
    if a == b && b == c then
      let skipped := breakLength r
      longFrom a [] (3 + skipped) (r.drop skipped)
    else short s
  | s => short s
where
  short : List Char → Option (String × Nat)
    | '"' :: r => basicFrom [] 1 r
    | '\'' :: r => (literalFrom r).map fun (text, n) => (text, n + 1)
    | _ => none

/-! ### Numbers -/

/-- Number of digits, with single underscores between them, behind a digit. -/
def moreDigits (isDigit : Char → Bool) : List Char → Nat
  | '_' :: c :: r => if isDigit c then 2 + moreDigits isDigit r else 0
  | c :: r => if isDigit c then 1 + moreDigits isDigit r else 0
  | [] => 0

/-- Number of digits at the front, with single underscores between them. -/
def digitRun (isDigit : Char → Bool) : List Char → Nat
  | c :: r => if isDigit c then 1 + moreDigits isDigit r else 0
  | [] => 0

/-- The number that digits spell in a base; other characters are passed over. -/
def numberOf (base : Nat) (s : List Char) : Nat :=
  (s.filterMap Text.hexValue?).foldl (fun n d => base * n + d) 0

def isSign (c : Char) : Bool :=
  c == '+' || c == '-'

def signLength (s : List Char) : Nat :=
  if s.head?.any isSign then 1 else 0

/-- Integers have 64 bits with a sign. -/
def integer? (n : Int) : Option Value :=
  if -0x8000000000000000 ≤ n && n < 0x8000000000000000 then some (.integer n) else none

/-- An integer behind the mark of a base other than ten. -/
def basedInteger? (base : Nat) (r : List Char) : Option (Value × Nat) := do
  let isDigit (c : Char) : Bool := (Text.hexValue? c).any (· < base)
  let n := digitRun isDigit r
  guard (0 < n)
  return (← integer? (numberOf base (r.take n)), n + 2)

/-- Length of a whole number with its sign; only zero itself begins with a zero. -/
def wholeLength (s : List Char) : Nat :=
  let sign := signLength s
  match s.drop sign with
  | '0' :: _ => sign + 1
  | r => match digitRun Char.isDigit r with
    | 0 => 0
    | n => sign + n

/-- Length of a fraction with its point; 0 if there is none, nothing if it has no digits. -/
def fractionLength? (s : List Char) : Option Nat :=
  match s with
  | '.' :: r => match digitRun Char.isDigit r with
    | 0 => none
    | n => some (n + 1)
  | _ => some 0

/-- The exponent and its length with its letter; nothing if it has no digits. -/
def exponent? (s : List Char) : Option (Int × Nat) :=
  match s with
  | [] => some (0, 0)
  | c :: r =>
    if c != 'e' && c != 'E' then some (0, 0)
    else
      let sign := signLength r
      let n := digitRun Char.isDigit (r.drop sign)
      let e : Int := numberOf 10 ((r.drop sign).take n)
      if n == 0 then none else some (if r.head? == some '-' then -e else e, 1 + sign + n)

/-- Texts of numbers that have no digits. -/
def special? (s : List Char) : Option (Value × Nat) :=
  let sign := signLength s
  match s.drop sign with
  | 'i' :: 'n' :: 'f' :: _ => some (.float (.infinite (s.head? == some '-')), sign + 3)
  | 'n' :: 'a' :: 'n' :: _ => some (.float .nan, sign + 3)
  | _ => none

/-- A number in decimal digits. One too great for a float is no number. -/
def decimal? (s : List Char) : Option (Value × Nat) := do
  let negative := s.head? == some '-'
  let whole := wholeLength s
  guard (0 < whole)
  let fraction ← fractionLength? (s.drop whole)
  let (e, n) ← exponent? (s.drop (whole + fraction))
  if fraction + n == 0 then
    let k : Int := numberOf 10 (s.take whole)
    return (← integer? (if negative then -k else k), whole)
  else
    let digits := s.take (whole + fraction)
    let places := ((s.drop whole).take fraction).countP Char.isDigit
    let x := Binary64.ofDecimal negative (numberOf 10 (digits.filter Char.isDigit)) (e - places)
    guard (x != .infinite false)
    return (.float x, whole + fraction + n)

/-! ### Dates and times -/

/-- A number of two digits in a range. -/
def twoDigits? (low high : Nat) : List Char → Option Nat
  | a :: b :: _ =>
    let n := 10 * (a.toNat - 48) + (b.toNat - 48)
    if a.isDigit && b.isDigit && low ≤ n && n ≤ high then some n else none
  | _ => none

def daysInMonth (year month : Nat) : Nat :=
  let leap := year % 4 == 0 && (year % 100 != 0 || year % 400 == 0)
  if month == 2 then (if leap then 29 else 28)
  else if month == 4 || month == 6 || month == 9 || month == 11 then 30
  else 31

/-- A date of ten characters. -/
def date? (s : List Char) : Option String := do
  let year := s.take 4
  guard (year.length == 4 && year.all Char.isDigit && s[4]? == some '-')
  let month ← twoDigits? 1 12 (s.drop 5)
  guard (s[7]? == some '-')
  let _ ← twoDigits? 1 (daysInMonth (numberOf 10 year) month) (s.drop 8)
  return String.ofList (s.take 10)

/-- A fraction of a second with nine digits at most, and without zeros at the end. -/
def secondFraction (digits : List Char) : String :=
  let kept := ((digits.take 9).reverse.dropWhile (· == '0')).reverse
  if kept.isEmpty then "" else "." ++ String.ofList kept

def time? (s : List Char) : Option (String × Nat) := do
  let _ ← twoDigits? 0 23 s
  guard (s[2]? == some ':')
  let _ ← twoDigits? 0 59 (s.drop 3)
  guard (s[5]? == some ':')
  let _ ← twoDigits? 0 60 (s.drop 6)
  let clock := String.ofList (s.take 8)
  match s.drop 8 with
  | '.' :: r =>
    let digits := r.takeWhile Char.isDigit
    if digits.isEmpty then return (clock, 8)
    else return (clock ++ secondFraction digits, 9 + digits.length)
  | _ => return (clock, 8)

/-- The distance of a time from universal time; none is written without a minus sign. -/
def offset? (s : List Char) : Option (String × Nat) := do
  let c ← s.head?
  if c == 'Z' || c == 'z' then return ("Z", 1)
  else
    guard (isSign c)
    let hours ← twoDigits? 0 23 (s.drop 1)
    guard (s[3]? == some ':')
    let minutes ← twoDigits? 0 59 (s.drop 4)
    let text := String.ofList (s.take 6)
    return (if hours + minutes == 0 then "+00:00" else text, 6)

/-- A date, perhaps with a time, or a time alone. -/
def datetime? (s : List Char) : Option (Value × Nat) :=
  match date? s with
  | none => (time? s).map fun (text, n) => (.datetime text, n)
  | some date =>
    let separated := s[10]?.any fun c => c == 'T' || c == 't' || c == ' '
    match if separated then time? (s.drop 11) else none with
    | none => some (.datetime date, 10)
    | some (time, n) =>
      let (offset, k) := (offset? (s.drop (11 + n))).getD ("", 0)
      some (.datetime (date ++ "T" ++ time ++ offset), 11 + n + k)

/-! ### All of them -/

/-- A value that holds no others. -/
def scalar? (s : List Char) : Option (Value × Nat) :=
  match s with
  | [] => none
  | c :: r =>
    if c == '"' || c == '\'' then (text? s).map fun (text, n) => (.string text, n)
    else if "true".toList.isPrefixOf s then some (.boolean true, 4)
    else if "false".toList.isPrefixOf s then some (.boolean false, 5)
    else
      match datetime? s, special? s with
      | some found, _ | none, some found => some found
      | none, none =>
        match c, r with
        | '0', 'x' :: r => basedInteger? 16 r
        | '0', 'o' :: r => basedInteger? 8 r
        | '0', 'b' :: r => basedInteger? 2 r
        | _, _ => decimal? s

end PhpLint.Toml
