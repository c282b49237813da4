import AccessTrace.Budget
import AccessTrace.Files.FileSystem
import AccessTrace.Ingest
import AccessTrace.Text
import AccessTrace.Word

/-!
What a command needs from the machine it runs on, how a machine tells its state in reports with
figures by name, one a line, and how its clock is written: moments are counted in hundredths of a
second since the start of 1970 and read as dates of the Gregorian calendar in universal time.
-/

namespace AccessTrace.Calendar

structure Date where
  year : Nat
  month : Nat
  day : Nat
deriving DecidableEq, Repr

/-- The days from the first of March of the year 0 to the start of 1970. -/
def daysBefore1970 : Nat :=
  719468

/-- The date a number of days after the start of 1970. Years are taken to begin in March, so that
the leap day is their last, and four centuries make a period of 146097 days. -/
def dateOfDays (days : Nat) : Date :=
  let n := days + daysBefore1970
  let period := n / 146097
  let rest := n % 146097
  let yearOfPeriod := (rest - rest / 1460 + rest / 36524 - rest / 146096) / 365
  let dayOfYear := rest - (365 * yearOfPeriod + yearOfPeriod / 4 - yearOfPeriod / 100)
  let monthFromMarch := (5 * dayOfYear + 2) / 153
  let month := if monthFromMarch < 10 then monthFromMarch + 3 else monthFromMarch - 9
  { year := 400 * period + yearOfPeriod + if month ≤ 2 then 1 else 0
    month
    day := dayOfYear - (153 * monthFromMarch + 2) / 5 + 1 }

def padded (width n : Nat) : String :=
  String.ofList ((toString n).toList.leftpad width '0')

def text (hundredths : Nat) : String :=
  let seconds := hundredths / 100
  let date := dateOfDays (seconds / 86400)
  let clock := seconds % 86400
  padded 4 date.year ++ "-" ++ padded 2 date.month ++ "-" ++ padded 2 date.day ++ "T" ++
    padded 2 (clock / 3600) ++ ":" ++ padded 2 (clock / 60 % 60) ++ ":" ++ padded 2 (clock % 60) ++
    "." ++ padded 2 (hundredths % 100) ++ "+00:00"

end AccessTrace.Calendar

namespace AccessTrace.Host.Report

/-- The figure in the second column of the line that has a name in the first. -/
def figure? (report : List Char) (name : String) : Option Nat :=
  (Text.splitOn '\n' report).findSome? fun line =>
    if Text.run line = name.toList then Word.ofDigits? (Text.run (Text.afterRun line)) else none

/-- The state of memory, in units of 1024 bytes, if the report tells the total. What is available
beyond the free memory can be reclaimed. -/
def memory? (report : List Char) : Option Snapshot := do
  let total ← figure? report "MemTotal:"
  if total = 0 then none
  let free := (figure? report "MemFree:").getD 0
  let available := (figure? report "MemAvailable:").getD 0
  return {
    total := .ofNat (1024 * total)
    free := .ofNat (1024 * free)
    reclaimable := .ofNat (1024 * (available - free))
    idle := 0 }

/-- The hundredths of a second since the start of 1970, from the second in which the machine was
booted and the time since then, written with two places. -/
def time? (boot uptime : List Char) : Option Nat := do
  let booted ← figure? boot "btime"
  let since := Text.run uptime
  let seconds ← Word.ofDigits? (since.takeWhile (· ≠ '.'))
  let hundredths ← Word.ofDigits? ((since.dropWhile (· ≠ '.')).drop 1)
  return 100 * (booted + seconds) + hundredths

end AccessTrace.Host.Report

namespace AccessTrace

class Host (m : Type → Type) extends Files.FileSystem m where
  print : String → m Unit
  now : m String
  load : Ingest → m Ingest.Status

end AccessTrace
