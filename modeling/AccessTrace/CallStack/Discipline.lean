import AccessTrace.CallStack
import AccessTrace.Record

/-!
The plain discipline of calls: an entry goes on top of the stack, and an exit must name the function
on top and takes it away. It is followed on functions alone, without positions or chunks, and on
frames that remember where they were entered.
-/

namespace AccessTrace.CallStack

/-- The stack behind a record, innermost function first, if the record obeys the discipline. -/
def follow (stack : List UInt64) : Record → Option (List UInt64)
  | .access _ => some stack
  | .enter function => some (function :: stack)
  | .exit function =>
    match stack with
    | [] => none
    | top :: below => if top = function then some below else none

def followAll (stack : List UInt64) (records : List Record) : Option (List UInt64) :=
  records.foldlM follow stack

@[simp] theorem followAll_nil (stack : List UInt64) : followAll stack [] = some stack :=
  rfl

@[simp] theorem followAll_cons (stack : List UInt64) (r : Record) (rest : List Record) :
    followAll stack (r :: rest) = (follow stack r).bind fun s => followAll s rest :=
  rfl

theorem followAll_append (stack : List UInt64) (front rest : List Record) :
    followAll stack (front ++ rest) = (followAll stack front).bind fun s => followAll s rest := by
  simp [followAll, List.foldlM_append]

/-- The functions open just behind the record at a position, innermost first. -/
def openAt (records : List Record) (position : Nat) : Option (List UInt64) :=
  followAll [] (records.take (position + 1))

def trackOne (position : Nat) (stack : List OpenFrame) : Record → Option (List OpenFrame)
  | .access _ => some stack
  | .enter function => some ({ origin := .entered position, function } :: stack)
  | .exit function =>
    match stack with
    | [] => none
    | top :: below => if top.function = function then some below else none

def track (position : Nat) (stack : List OpenFrame) : List Record → Option (List OpenFrame)
  | [] => some stack
  | r :: rest => (trackOne position stack r).bind fun next => track (position + 1) next rest

/-- The frames of a stack that a stretch of records begins with, innermost first; the functions are
named from the outermost on. -/
def carried (functions : List UInt64) : List OpenFrame :=
  (functions.mapIdx fun slot function => { origin := .inherited slot, function }).reverse

def openBehind (functions : List UInt64) (records : List Record) (count : Nat) :
    Option (List OpenFrame) :=
  track 0 (carried functions) (records.take count)

/-- Whether the record at a place is the exit of a frame: the frame is the innermost one there. -/
def ExitsAt (functions : List UInt64) (records : List Record) (frame : OpenFrame) (place : Nat) :
    Prop :=
  records[place]? = some (.exit frame.function) ∧
    ∃ below, openBehind functions records place = some (frame :: below)

theorem track_append (position : Nat) (stack : List OpenFrame) (front rest : List Record) :
    track position stack (front ++ rest) =
      (track position stack front).bind fun now => track (position + front.length) now rest := by
  induction front generalizing position stack with
  | nil => rfl
  | cons r front ih =>
    simp only [List.cons_append, track, Option.bind_assoc, List.length_cons]
    congr 1
    funext next
    rw [ih, Nat.add_right_comm, Nat.add_assoc]

end AccessTrace.CallStack
