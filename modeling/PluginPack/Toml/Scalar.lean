import PluginPack.Toml.Quoted

/-!
# TOML numbers, dates and times

What a run of characters without quotes means: a truth value, an integer in one of four bases, a
floating-point number, or a date, a time or both.
-/

namespace PluginPack.Toml

open Text

/-! ## Digits -/

/-- Whether digits are well formed: at least one, with single underscores only between them. -/
def areDigits (isDigit : Char → Bool) : Text → Bool
  | [] => false
  | [c] => isDigit c
  | c :: '_' :: r => isDigit c && areDigits isDigit r
  | c :: r => isDigit c && areDigits isDigit r

/-- The text without underscores. -/
def dropUnderscores (t : Text) : Text := t.filter (· != '_')

/-- The number that digits of a base write. -/
def numberOf (base : Nat) (digits : Text) : Nat :=
  (dropUnderscores digits).foldl (fun n c ↦ n * base + (hexValue? c).getD 0) 0

/-- The text behind a sign, and whether the sign is a minus. -/
def splitSign : Text → Bool × Text
  | '-' :: r => (true, r)
  | '+' :: r => (false, r)
  | t => (false, t)

/-! ## Numbers -/

/-- Whether digits write a decimal number without a leading zero. -/
def isDecimal (t : Text) : Bool := areDigits Char.isDigit t && (t.head? != some '0' || t == ['0'])

/-- Whether an integer fits in 128 bits, with a sign or without one. -/
def isInRange : Int → Bool
  | .ofNat n => n < Nat.pow 2 128
  | .negSucc n => n < Nat.pow 2 127

/-- Reads an integer. Bases other than ten have no sign. -/
def integer? (t : Text) : Option Int :=
  let read (base : Nat) (isDigit : Char → Bool) (r : Text) : Option Int :=
    if areDigits isDigit r then some (numberOf base r) else none
  let n := match t with
    | '0' :: 'x' :: r => read 16 (fun c ↦ (hexValue? c).isSome) r
    | '0' :: 'o' :: r => read 8 (fun c ↦ '0' ≤ c && c ≤ '7') r
    | '0' :: 'b' :: r => read 2 (fun c ↦ c == '0' || c == '1') r
    | t =>
      let (minus, r) := splitSign t
      if isDecimal r then some (if minus then -(numberOf 10 r : Int) else numberOf 10 r) else none
  n.filter isInRange

/-- Whether a text is the exponent of a number, behind the letter. -/
def isExponent (t : Text) : Bool := areDigits Char.isDigit (splitSign t).2

/-- Whether a text is what follows the digits of a floating-point number before the point: a
fraction, an exponent, or both. -/
def isFloatTail : Text → Bool
  | '.' :: r =>
    let frac := r.takeWhile fun c ↦ c.isDigit || c == '_'
    areDigits Char.isDigit frac &&
      match r.drop frac.length with
      | [] => true
      | e :: x => (e == 'e' || e == 'E') && isExponent x
  | e :: x => (e == 'e' || e == 'E') && isExponent x
  | [] => false

/-- The whole number that a sign and digits write. -/
def signed (t : Text) : Int :=
  let (minus, r) := splitSign t
  if minus then -(numberOf 10 r : Int) else numberOf 10 r

/-- Whether `n * 10 ^ e` is small enough for a floating-point number of 64 bits. Sizes that are far
from the limit are told by counting digits. -/
def isFiniteDecimal (n : Nat) (e : Int) : Bool :=
  let size := ((Nat.toDigits 10 n).length : Int) + e
  let limit := Nat.pow 2 1024 - Nat.pow 2 970
  if n = 0 ∨ size < 300 then true
  else if 320 < size then false
  else n * Nat.pow 10 e.toNat < limit * Nat.pow 10 (-e).toNat

/-- Whether a floating-point number without a sign is small enough to be held. -/
def isFinite (t : Text) : Bool :=
  let mantissa := t.takeWhile fun c ↦ c != 'e' && c != 'E'
  let fraction := dropUnderscores ((mantissa.dropWhile (· != '.')).drop 1)
  isFiniteDecimal (numberOf 10 (mantissa.filter (· != '.')))
    (signed (t.drop (mantissa.length + 1)) - fraction.length)

/-- Whether a text is a floating-point number. -/
def isFloat (t : Text) : Bool :=
  let r := (splitSign t).2
  let whole := r.takeWhile fun c ↦ c.isDigit || c == '_'
  r == "inf".toList || r == "nan".toList ||
    (isDecimal whole && isFloatTail (r.drop whole.length) && isFinite r)

/-! ## Dates and times -/

/-- The number that a text of so many decimal digits writes. -/
def fixedDigits? (n : Nat) (t : Text) : Option (Nat × Text) :=
  let d := t.take n
  if d.length = n ∧ d.all Char.isDigit then some (numberOf 10 d, t.drop n) else none

/-- Whether a year of the Gregorian calendar has a 29th of February. -/
def isLeap (year : Nat) : Bool := year % 4 == 0 && (year % 100 != 0 || year % 400 == 0)

/-- The number of days of a month. -/
def daysIn (year month : Nat) : Nat :=
  if month = 2 then (if isLeap year then 29 else 28)
  else if month = 4 ∨ month = 6 ∨ month = 9 ∨ month = 11 then 30
  else 31

/-- The rest after a date. -/
def date? (t : Text) : Option Text := do
  let (year, r) ← fixedDigits? 4 t
  let (month, r) ← fixedDigits? 2 (← word? ['-'] r)
  let (day, r) ← fixedDigits? 2 (← word? ['-'] r)
  if 1 ≤ month ∧ month ≤ 12 ∧ 1 ≤ day ∧ day ≤ daysIn year month then some r else none

/-- The rest after a fraction of a second. -/
def fraction? (t : Text) : Option Text := (word? ['.'] t).bind (some? Char.isDigit)

/-- The rest after seconds with their fraction. -/
def seconds? (t : Text) : Option Text := do
  let (second, r) ← fixedDigits? 2 (← word? [':'] t)
  if second ≤ 60 then some (optionally fraction? r) else none

/-- The rest after a time of day. -/
def time? (t : Text) : Option Text := do
  let (hour, r) ← fixedDigits? 2 t
  let (minute, r) ← fixedDigits? 2 (← word? [':'] r)
  if hour ≤ 23 ∧ minute ≤ 59 then
    if r.head? = some ':' then seconds? r else some r
  else none

/-- The rest after an offset from universal time. -/
def offset? : Text → Option Text
  | 'Z' :: r => some r
  | 'z' :: r => some r
  | c :: r => do
    if c = '+' ∨ c = '-' then
      let (hour, r) ← fixedDigits? 2 r
      let (minute, r) ← fixedDigits? 2 (← word? [':'] r)
      if hour ≤ 23 ∧ minute ≤ 59 then some r else none
    else none
  | [] => none

/-- Whether a text is a date with a time, a date, or a time. -/
def isDatetime (t : Text) : Bool :=
  match date? t with
  | none => time? t == some []
  | some [] => true
  | some (c :: r) =>
    (c == 'T' || c == 't' || c == ' ') && (time? r).any fun r ↦ optionally offset? r == []

/-! ## Values without quotes -/

/-- A character of a value without quotes. -/
def isBareValueChar (c : Char) : Bool :=
  c.isAlphanum || c == '_' || c == '-' || c == '+' || c == '.' || c == ':'

/-- The characters of the value without quotes that a text begins with, and the rest. One space may
stand between a date and a time. -/
def splitBare (t : Text) : Text × Text :=
  let first := t.takeWhile isBareValueChar
  match t.dropWhile isBareValueChar with
  | ' ' :: d :: r =>
    if date? first = some [] ∧ d.isDigit then
      (first ++ ' ' :: (d :: r).takeWhile isBareValueChar, (d :: r).dropWhile isBareValueChar)
    else (first, ' ' :: d :: r)
  | r => (first, r)

/-- What a run of characters means. -/
def bareValue? (t : Text) : Option Value :=
  if t = "true".toList then some (.boolean true)
  else if t = "false".toList then some (.boolean false)
  else
    match integer? t with
    | some n => some (.integer n)
    | none =>
      if isFloat t then some (.float t) else if isDatetime t then some (.datetime t) else none

end PluginPack.Toml
