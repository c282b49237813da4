import AccessTrace.Interval
import AccessTrace.Record
import AccessTrace.Word

/-!
Call frames of a stretch of records. Every frame covers a range of positions, from the record that
enters its function to the one in front of the exit; the index holds these ranges in an interval
tree and answers which frames are open at a position. Frames that were open before the stretch come
in as entry records, outermost first, and those open at its end go out the same way.
-/

namespace AccessTrace.CallStack

/-- Where a frame was entered: at a place in the stack that the stretch began with, or at one of its
own records. -/
inductive Origin
  | inherited (slot : Nat)
  | entered (position : Nat)
deriving DecidableEq, Repr

namespace Origin

def first : Origin → Nat
  | inherited _ => 0
  | entered position => position

def le : Origin → Origin → Bool
  | inherited a, inherited b => a ≤ b
  | inherited _, entered _ => true
  | entered _, inherited _ => false
  | entered a, entered b => a ≤ b

end Origin

/-- A frame whose exit, when it is `closed`, lies in the same stretch. -/
structure Frame where
  origin : Origin
  function : UInt64
  closed : Bool
deriving DecidableEq, Repr

def Frame.entry (f : Frame) : Record :=
  .enter f.function

inductive Error
  | unbalanced (position : Nat) (expected : Option UInt64) (found : UInt64)
  | notAnEntry (slot : Nat)
deriving DecidableEq, Repr

def Error.message : Error → String
  | .unbalanced position expected found =>
    let frame := match expected with
      | none => "None"
      | some function => s!"Some({function.toNat})"
    s!"Unbalanced stack at record {position}: exit of {Word.hex found} " ++
      s!"does not match open frame {frame}"
  | .notAnEntry slot => s!"Carried-in context slot {slot} is not a function entry"

structure OpenFrame where
  origin : Origin
  function : UInt64
deriving DecidableEq, Repr

namespace OpenFrame

def entry (f : OpenFrame) : Record :=
  .enter f.function

def span (f : OpenFrame) (stop : Nat) (closed : Bool) : Interval Frame where
  start := f.origin.first
  stop := stop
  value := { origin := f.origin, function := f.function, closed }

end OpenFrame

/-- Puts inherited frames, from the given slot on, on a stack with the innermost first; all of them
must be entries. -/
def inherit (slot : Nat) (stack : List OpenFrame) : List Record → Except Error (List OpenFrame)
  | [] => .ok stack
  | .enter function :: rest =>
    inherit (slot + 1) ({ origin := .inherited slot, function } :: stack) rest
  | _ :: _ => .error (.notAnEntry slot)

/-- Pairs entries with exits from a position on. `stack` holds the frames open there, innermost
first, and `spans` the ranges of the frames left so far, last first. A frame that is left where it
begins to count covers nothing. -/
def pair (position : Nat) (stack : List OpenFrame) (spans : List (Interval Frame)) :
    List Record → Except Error (List (Interval Frame) × List OpenFrame)
  | [] => .ok (spans.reverse, stack)
  | .access _ :: rest => pair (position + 1) stack spans rest
  | .enter function :: rest =>
    pair (position + 1) ({ origin := .entered position, function } :: stack) spans rest
  | .exit function :: rest =>
    match stack with
    | [] => .error (.unbalanced position none function)
    | frame :: below =>
      if frame.function ≠ function then
        .error (.unbalanced position (some frame.function) function)
      else if frame.origin.first < position then
        pair (position + 1) below (frame.span (position - 1) true :: spans) rest
      else pair (position + 1) below spans rest

structure Index where
  frames : Interval.Tree Frame
  length : Nat

namespace Index

/-- Indexes a stretch of records; gives the frames left open as well, outermost first. -/
def build (carryIn records : List Record) : Except Error (Index × List Record) := do
  let stack ← inherit 0 [] carryIn
  let (closed, stack) ← pair 0 stack [] records
  let pending := stack.reverse
  let length := records.length
  let unclosed := if length = 0 then [] else pending.map fun f => f.span (length - 1) false
  return ({ frames := .ofList (closed ++ unclosed), length }, pending.map OpenFrame.entry)

def frameCount (i : Index) : Nat :=
  i.frames.size

def framesAt (i : Index) (position : Nat) : List Frame :=
  if position < i.length then
    ((i.frames.query position).map Interval.value).mergeSort fun a b => a.origin.le b.origin
  else []

def stackAt (i : Index) (position : Nat) : List Record :=
  (i.framesAt position).map Frame.entry

end Index

end AccessTrace.CallStack
