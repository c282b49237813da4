import AccessTrace.Command
import AccessTrace.Word

/-!
Commands as they are typed. Arguments are read from left to right, and the first one that asks for
help or makes no sense ends the reading. Nothing may be given twice.
-/

namespace AccessTrace.CommandLine

inductive Item
  | verbose
  | help
  | version
  | output
  | position
  | pageSize
  | lookback
  | quietThreshold
  | minSpareMb
  | safetyMarginMb
  | relativeMargin
  | strictRegions
  | retainDetail
deriving DecidableEq, Repr

namespace Item

def long : Item → String
  | verbose => "verbose"
  | help => "help"
  | version => "version"
  | output => "output"
  | position => "at"
  | pageSize => "page-size"
  | lookback => "lookback"
  | quietThreshold => "quiet-threshold"
  | minSpareMb => "min-spare-mb"
  | safetyMarginMb => "safety-margin-mb"
  | relativeMargin => "relative-margin"
  | strictRegions => "strict-regions"
  | retainDetail => "retain-detail"

def short? : Item → Option Char
  | verbose => some 'v'
  | help => some 'h'
  | version => some 'V'
  | output => some 'o'
  | _ => none

def takesValue : Item → Bool
  | verbose | help | version | strictRegions | retainDetail => false
  | _ => true

/-- Whether an argument of its own can be the value. What looks like an option is no path; what is
no number is found out when it is read. -/
def accepts (i : Item) (value : String) : Bool :=
  i ≠ output || value == "-" || !value.startsWith "-"

end Item

inductive Verb
  | inspect
  | stack
  | regions
  | version
deriving DecidableEq, Repr

namespace Verb

def all : List Verb :=
  [inspect, stack, regions, version]

def name : Verb → String
  | inspect => "inspect"
  | stack => "stack"
  | regions => "regions"
  | version => "version"

def ofName? (name : String) : Option Verb :=
  all.find? fun v => v.name == name

def loadItems : List Item :=
  [.pageSize, .lookback, .quietThreshold, .minSpareMb, .safetyMarginMb, .relativeMargin,
    .strictRegions, .retainDetail]

def items : Verb → List Item
  | inspect => [.verbose, .help, .output] ++ loadItems
  | stack => [.verbose, .help, .position] ++ loadItems
  | regions => [.verbose, .help] ++ loadItems
  | version => [.verbose, .help]

end Verb

def leadItems : List Item :=
  [.verbose, .help, .version]

inductive Stop
  | usage
  | help
  | version
deriving DecidableEq, Repr

structure Given where
  seen : List Item := []
  trace : Option String := none
  output : Option String := none
  position : Option UInt64 := none
  config : Config := {}

namespace Given

def note (g : Given) (i : Item) : Except Stop Given :=
  if g.seen.contains i then throw .usage else return { g with seen := i :: g.seen }

def raise (g : Given) (i : Item) : Except Stop Given := do
  match i with
  | .help => throw .help
  | .version => throw .version
  | _ =>
    let g ← g.note i
    let c := g.config
    match i with
    | .strictRegions => return { g with config := { c with strictRegions := true } }
    | .retainDetail => return { g with config := { c with retainDetail := true } }
    | _ => return g

def orUsage {α : Type} : Option α → Except Stop α
  | some x => .ok x
  | none => .error .usage

def word (value : String) : Except Stop UInt64 :=
  orUsage (Word.ofDecimal? value.toList)

def signed (value : String) : Except Stop Int64 :=
  orUsage (Word.signedOfDecimal? value.toList)

def path (value : String) : Except Stop String :=
  if value.isEmpty then throw .usage else return value

def setPages (g : Given) (change : PageConfig → PageConfig) : Given :=
  { g with config := { g.config with pages := change g.config.pages } }

def setBudget (g : Given) (change : Budget → Budget) : Given :=
  { g with config := { g.config with budget := change g.config.budget } }

def assign (g : Given) (i : Item) (value : String) : Except Stop Given := do
  let g ← g.note i
  match i with
  | .output => return { g with output := some (← path value) }
  | .position => return { g with position := some (← word value) }
  | .pageSize =>
    let n ← word value
    return g.setPages fun p => { p with pageSize := n }
  | .lookback =>
    let n ← word value
    return g.setPages fun p => { p with lookback := n.toNat }
  | .quietThreshold =>
    let n ← word value
    return g.setPages fun p => { p with quietThreshold := n.toNat }
  | .minSpareMb =>
    let n ← signed value
    return g.setBudget fun b => { b with minSpareMb := n }
  | .safetyMarginMb =>
    let n ← word value
    return g.setBudget fun b => { b with safetyMarginMb := n }
  | .relativeMargin =>
    let n ← word value
    return g.setBudget fun b => { b with relativeMarginPercent := n }
  | _ => throw .usage

def place (g : Given) (v : Verb) (value : String) : Except Stop Given := do
  if v = .version || g.trace.isSome then throw .usage
  return { g with trace := some (← path value) }

end Given

inductive Reading
  | complete (g : Given)
  | wants (i : Item) (g : Given)

def readLong (items : List Item) (g : Given) (body : List Char) : Except Stop Reading := do
  let name := String.ofList (body.takeWhile (· ≠ '='))
  match items.find? fun i => i.long == name, body.dropWhile (· ≠ '=') with
  | none, _ => throw .usage
  | some i, [] => if i.takesValue then return .wants i g else return .complete (← g.raise i)
  | some i, _ :: value =>
    if i.takesValue then return .complete (← g.assign i (String.ofList value)) else throw .usage

/-- Reads letters behind one dash. What follows a letter that takes a value is that value, with or
without an equals sign. -/
def readShort (items : List Item) (g : Given) : List Char → Except Stop Reading
  | [] => .ok (.complete g)
  | c :: rest => do
    match items.find? fun i => i.short? == some c with
    | none => throw .usage
    | some i =>
      if !i.takesValue then readShort items (← g.raise i) rest
      else
        match rest with
        | [] => return .wants i g
        | '=' :: value => return .complete (← g.assign i (String.ofList value))
        | value => return .complete (← g.assign i (String.ofList value))

def readNamed? (items : List Item) (g : Given) (arg : String) : Option (Except Stop Reading) :=
  match arg.toList with
  | '-' :: '-' :: body => some (readLong items g body)
  | '-' :: c :: rest => some (readShort items g (c :: rest))
  | _ => none

def readArguments (v : Verb) (g : Given) : List String → Except Stop Given
  | [] => .ok g
  | "--" :: rest => rest.foldlM (fun g value => g.place v value) g
  | arg :: rest => do
    match readNamed? v.items g arg with
    | none => readArguments v (← g.place v arg) rest
    | some reading =>
      match ← reading, rest with
      | .complete g, rest => readArguments v g rest
      | .wants _ _, [] => throw .usage
      | .wants i g, value :: rest =>
        if i.accepts value then readArguments v (← g.assign i value) rest else throw .usage
termination_by args => args.length

def commandOf (v : Verb) (g : Given) : Except Stop Command :=
  match v, g.trace, g.position with
  | .version, _, _ => .ok .version
  | .inspect, some trace, _ => .ok (.inspect trace g.output g.config)
  | .stack, some trace, some position => .ok (.stack trace position g.config)
  | .regions, some trace, _ => .ok (.regions trace g.config)
  | _, _, _ => .error .usage

def readTopics : List String → Stop
  | [] => .help
  | [topic] => if topic == "help" || (Verb.ofName? topic).isSome then .help else .usage
  | _ => .usage

def readLead (g : Given) : List String → Except Stop Command
  | [] => .error .usage
  | arg :: rest => do
    match Verb.ofName? arg with
    | some v => commandOf v (← readArguments v {} rest)
    | none =>
      if arg == "help" then throw (readTopics rest)
      match readNamed? leadItems g arg with
      | none => throw .usage
      | some reading =>
        match ← reading with
        | .complete g => readLead g rest
        | .wants _ _ => throw .usage

def read (args : List String) : Except Stop Command :=
  readLead {} args

def programName : String :=
  "memtrace"

def optionText (i : Item) : String :=
  "--" ++ i.long ++ (if i.takesValue then " <VALUE>" else "")

def usageText : String :=
  "Usage: " ++ programName ++ " <COMMAND>\n\nCommands:\n" ++
    String.join (Verb.all.map fun v =>
      "  " ++ " ".intercalate (v.name :: (if v = .version then [] else ["<TRACE>"]) ++
        (v.items.map fun i => "[" ++ optionText i ++ "]")) ++ "\n")

/-- How a program ends: its exit code, and what it says about an error. -/
structure Exit where
  code : UInt8
  complaint : String
deriving DecidableEq, Repr

variable {m : Type → Type} [Monad m] [Host m]

def run (args : List String) : m Exit := do
  match read args with
  | .error .usage => return ⟨2, usageText⟩
  | .error .help =>
    Host.print usageText
    return ⟨0, ""⟩
  | .error .version =>
    Host.print (programName ++ " " ++ Command.programVersion ++ "\n")
    return ⟨0, ""⟩
  | .ok command =>
    match ← ExceptT.run (Command.run command) with
    | .ok () => return ⟨0, ""⟩
    | .error failure => return ⟨1, failure.report⟩

end AccessTrace.CommandLine
