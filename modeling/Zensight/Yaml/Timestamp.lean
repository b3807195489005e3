import Zensight.Text

/-!
# Times in YAML

Which texts write a time: a date, or a date and a time of day, with a time zone
if the letter `T` divides the two.
-/

namespace Zensight.Yaml.Timestamp

/-- A number of one or two digits, and the rest. -/
def number? : Text → Option (Nat × Text)
  | [] => none
  | c :: s =>
    if !Text.isDigit c then none
    else
      let n := c.toNat - '0'.toNat
      match s with
      | d :: rest =>
        if Text.isDigit d then some (n * 10 + (d.toNat - '0'.toNat), rest) else some (n, s)
      | [] => some (n, s)

/-- A number of two digits, and the rest. -/
def twoDigits? (s : Text) : Option (Nat × Text) :=
  if 2 ≤ s.length && (s.take 2).all Text.isDigit then number? s else none

/-- The rest of a text behind a character. -/
def behind? (c : Char) (s : Text) : Option Text :=
  if s.head? = some (byte c) then some s.tail else none

def isLeap (year : Nat) : Bool := year % 4 = 0 && (year % 100 ≠ 0 || year % 400 = 0)

/-- The number of days in a month. -/
def daysIn (year month : Nat) : Nat :=
  if month = 2 then if isLeap year then 29 else 28
  else if month = 4 || month = 6 || month = 9 || month = 11 then 30
  else 31

/-- The rest of a text behind a date. -/
def date? (s : Text) : Option Text := do
  let digits := s.takeWhile Text.isDigit
  if digits.length ≠ 4 then none
  let year := digits.foldl (fun n c => n * 10 + (c.toNat - '0'.toNat)) 0
  let s ← behind? '-' (s.drop 4)
  let (month, s) ← number? s
  let s ← behind? '-' s
  let (day, s) ← number? s
  if 1 ≤ month && month ≤ 12 && 1 ≤ day && day ≤ daysIn year month then some s else none

/-- The rest of a text behind the fraction of a second, which may be missing. -/
def fraction (s : Text) : Text :=
  match s with
  | c :: d :: rest =>
    if (c = byte '.' || c = byte ',') && Text.isDigit d then rest.dropWhile Text.isDigit else s
  | _ => s

/-- The rest of a text behind a time of day. -/
def clock? (s : Text) : Option Text := do
  let (hour, s) ← number? s
  let (minute, s) ← number? (← behind? ':' s)
  let (second, s) ← number? (← behind? ':' s)
  if hour < 24 && minute < 60 && second < 60 then some (fraction s) else none

/-- Is the text a time zone? -/
def isZone (s : Text) : Bool :=
  s == txt "Z" || ((s.head? == some (byte '+') || s.head? == some (byte '-')) && (do
    let (hour, s) ← twoDigits? s.tail
    let (minute, s) ← twoDigits? (← behind? ':' s)
    return s.isEmpty && hour ≤ 24 && minute ≤ 60) == some true)

/-- Does the text write a time? -/
def isTimestamp (s : Text) : Bool :=
  match date? s with
  | none => false
  | some [] => true
  | some (c :: rest) =>
    if c = byte 'T' || c = byte 't' then ((clock? rest).map isZone).getD false
    else if c = byte ' ' then clock? (rest.dropWhile (· == byte ' ')) == some []
    else false

end Zensight.Yaml.Timestamp
