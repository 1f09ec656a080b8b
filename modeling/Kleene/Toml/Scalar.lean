import Kleene.Toml.Value

/-!
# Scalars

The values that are written as one run of characters: numbers, truth values, dates and
times.  A well-formed number that is too large for its kind is a value out of range.
-/

namespace Kleene.Toml

/-! ## Digits -/

def digitValue? (base : Nat) (c : Char) : Option Nat :=
  let value :=
    if c.isDigit then some (c.toNat - '0'.toNat)
    else if 'a' ≤ c ∧ c ≤ 'f' then some (c.toNat - 'a'.toNat + 10)
    else if 'A' ≤ c ∧ c ≤ 'F' then some (c.toNat - 'A'.toNat + 10)
    else none
  value.filter (· < base)

/-- The number that digits stand for; there has to be at least one. -/
def number? (base : Nat) (ds : List Char) : Option Nat :=
  if ds.isEmpty then none
  else ds.foldlM (fun n c => (digitValue? base c).map (n * base + ·)) 0

/-- Digits without their separators, of which each stands between two digits. -/
def withoutSeparators : List Char → Option (List Char)
  | [] => some []
  | ['_'] => none
  | '_' :: _ => none
  | c :: '_' :: d :: rest =>
    if d = '_' then none else (withoutSeparators (d :: rest)).map (c :: ·)
  | c :: rest => (withoutSeparators rest).map (c :: ·)

def separatedNumber? (base : Nat) (ds : List Char) : Option Nat :=
  (withoutSeparators ds).bind (number? base)

/-- A decimal number without superfluous zeros in front. -/
def decimal? (ds : List Char) : Option Nat :=
  match ds with
  | '0' :: _ :: _ => none
  | _ => separatedNumber? 10 ds

/-! ## Integers -/

/-- Whether an integer fits into 128 bits, with a sign or without one. -/
def integerFits (n : Int) : Bool :=
  n < 0x100000000000000000000000000000000 && -0x80000000000000000000000000000000 ≤ n

/-- An integer in decimal with an optional sign, or in base 16, 8 or 2. -/
def integer? (cs : List Char) : Option Int :=
  match cs with
  | '0' :: 'x' :: ds => (separatedNumber? 16 ds).map Int.ofNat
  | '0' :: 'o' :: ds => (separatedNumber? 8 ds).map Int.ofNat
  | '0' :: 'b' :: ds => (separatedNumber? 2 ds).map Int.ofNat
  | '+' :: ds => (decimal? ds).map Int.ofNat
  | '-' :: ds => (decimal? ds).map fun n => -Int.ofNat n
  | ds => (decimal? ds).map Int.ofNat

/-! ## Numbers with a fraction or an exponent -/

/-- The number `digits * 10 ^ power`. -/
structure Decimal where
  digits : Nat
  power : Int

/-- The least number that does not fit into 64 bits: half a step above the largest one that
does, where the tie goes to infinity. -/
def overflow : Nat := Nat.pow 2 1024 - Nat.pow 2 970

/-- Whether a number is less than `overflow`, which has 309 digits.  The powers of ten are
written out only for numbers with as many digits before the point. -/
def Decimal.fits (d : Decimal) : Bool :=
  let places := (Nat.toDigits 10 d.digits).length + d.power
  d.digits = 0 || places < 309 ||
    places = 309 &&
      d.digits * Nat.pow 10 d.power.toNat < overflow * Nat.pow 10 (-d.power).toNat

/-- A list cut in two at the first element that meets a condition, which is dropped. -/
def cutAt? (p : Char → Bool) (cs : List Char) : Option (List Char × List Char) :=
  let before := cs.takeWhile (!p ·)
  match cs.drop before.length with
  | [] => none
  | _ :: after => some (before, after)

def unsigned : List Char → List Char
  | '+' :: cs => cs
  | '-' :: cs => cs
  | cs => cs

/-- A number without exponent and sign: digits, and perhaps a point and more digits. -/
def mantissa? (cs : List Char) : Option Decimal :=
  match cutAt? (· = '.') cs with
  | none => (decimal? cs).map (⟨·, 0⟩)
  | some (whole, fraction) => do
    let whole ← decimal? whole
    let places ← withoutSeparators fraction
    let part ← number? 10 places
    return ⟨whole * Nat.pow 10 places.length + part, -places.length⟩

def exponent? (cs : List Char) : Option Int :=
  (separatedNumber? 10 (unsigned cs)).map fun n =>
    if cs.head? = some '-' then -Int.ofNat n else Int.ofNat n

def magnitude? (cs : List Char) : Option Decimal :=
  match cutAt? (fun c => c = 'e' || c = 'E') cs with
  | none => mantissa? cs
  | some (mantissa, exponent) => do
    let d ← mantissa? mantissa
    let e ← exponent? exponent
    return ⟨d.digits, d.power + e⟩

def isNonFinite (cs : List Char) : Bool :=
  unsigned cs = "inf".toList || unsigned cs = "nan".toList

/-! ## Dates and times -/

def daysOfMonth (year month : Nat) : Nat :=
  let isLeap := year % 4 = 0 && (year % 100 ≠ 0 || year % 400 = 0)
  if month = 2 then (if isLeap then 29 else 28)
  else if month = 4 || month = 6 || month = 9 || month = 11 then 30
  else 31

def isDate : List Char → Bool
  | [y1, y2, y3, y4, '-', m1, m2, '-', d1, d2] =>
    match number? 10 [y1, y2, y3, y4], number? 10 [m1, m2], number? 10 [d1, d2] with
    | some year, some month, some day =>
      1 ≤ month && month ≤ 12 && 1 ≤ day && day ≤ daysOfMonth year month
    | _, _, _ => false
  | _ => false

/-- Whether two digits stand for a number of at most `max`. -/
def isPair (max : Nat) (c d : Char) : Bool := (number? 10 [c, d]).any (· ≤ max)

/-- Whether the text is the seconds of a time, with an optional fraction. -/
def isSeconds : List Char → Bool
  | [':', s1, s2] => isPair 60 s1 s2
  | ':' :: s1 :: s2 :: '.' :: fraction => isPair 60 s1 s2 && (number? 10 fraction).isSome
  | _ => false

def isTime : List Char → Bool
  | h1 :: h2 :: ':' :: m1 :: m2 :: seconds =>
    isPair 23 h1 h2 && isPair 59 m1 m2 && (seconds.isEmpty || isSeconds seconds)
  | _ => false

/-- Whether the text is a time with the offset of a time zone. -/
def isZonedTime (cs : List Char) : Bool :=
  match cs.getLast? with
  | some 'Z' | some 'z' => isTime cs.dropLast
  | _ =>
    match cs.drop (cs.length - 6) with
    | [sign, h1, h2, ':', m1, m2] =>
      (sign = '+' || sign = '-') && isPair 23 h1 h2 && isPair 59 m1 m2
        && isTime (cs.take (cs.length - 6))
    | _ => false

/-- Whether the text is a date, a time or both; a time zone needs both. -/
def isDateTime (cs : List Char) : Bool :=
  isDate cs || isTime cs ||
    match cs.drop 10 with
    | separator :: time =>
      (separator = 'T' || separator = 't' || separator = ' ') && isDate (cs.take 10)
        && (isTime time || isZonedTime time)
    | [] => false

/-! ## Scalars -/

/-- The value of a number; integers have neither point nor exponent. -/
def numeric? (cs : List Char) : Option Value :=
  match integer? cs with
  | some n => some (if integerFits n then .integer n else .outOfRange)
  | none =>
    if isNonFinite cs then some .float
    else (magnitude? (unsigned cs)).map fun d => if d.fits then .float else .outOfRange

def scalar? (cs : List Char) : Option Value :=
  if cs = "true".toList then some (.boolean true)
  else if cs = "false".toList then some (.boolean false)
  else
    match numeric? cs with
    | some v => some v
    | none => if isDateTime cs then some .dateTime else none

end Kleene.Toml
