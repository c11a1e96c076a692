/-!
# Time stamps and identifiers

The calendar form of a time and identifiers that sort by the time at which they were made.
-/

namespace Datapack.CommandLine

def padded (width n : Nat) : String :=
  let ds := Nat.toDigits 10 n
  String.ofList (List.replicate (width - ds.length) '0' ++ ds)

/-- The year, month and day of a number of days since the start of 1970. The calendar repeats after 400
years of 146097 days; a year is counted from March so that the leap day comes last. -/
def civil (days : Nat) : Nat × Nat × Nat :=
  let z := days + 719468
  let era := z / 146097
  let dayOfEra := z % 146097
  let yearOfEra := (dayOfEra - dayOfEra / 1460 + dayOfEra / 36524 - dayOfEra / 146096) / 365
  let dayOfYear := dayOfEra - (365 * yearOfEra + yearOfEra / 4 - yearOfEra / 100)
  let month := (5 * dayOfYear + 2) / 153
  let day := dayOfYear - (153 * month + 2) / 5 + 1
  let year := yearOfEra + era * 400
  if month < 10 then (year, month + 3, day) else (year + 1, month - 9, day)

/-- The date and time of a number of seconds since the start of 1970. -/
def timeText (seconds : Nat) : String :=
  let (year, month, day) := civil (seconds / 86400)
  let rest := seconds % 86400
  padded 4 year ++ "-" ++ padded 2 month ++ "-" ++ padded 2 day ++ "T" ++ padded 2 (rest / 3600)
    ++ ":" ++ padded 2 (rest / 60 % 60) ++ ":" ++ padded 2 (rest % 60) ++ "Z"

/-- The digits of identifiers: no letter that is easily taken for another. -/
def idDigits : List Char := "0123456789abcdefghjkmnpqrstvwxyz".toList

def idChars : Nat → Nat → List Char
  | 0, _ => []
  | width + 1, n => idChars width (n / 32) ++ [idDigits[n % 32]?.getD '0']

/-- The `n`-th identifier of a run that starts at a time with a random number. -/
def identifier (milliseconds random n : Nat) : String :=
  String.ofList (idChars 10 milliseconds ++ idChars 16 (random + n))

end Datapack.CommandLine
