import AccessTrace.Files.Tree
import AccessTrace.Host

/-!
A machine as a value: a tree of files, answers about memory, a clock that stands still, and the text
printed so far.
-/

namespace AccessTrace.Host

structure Model where
  files : Files.Tree
  memory : Forecast
  clock : String
  printed : String

namespace Model

def look {α : Type} (question : Files.Tree → Except Files.Fault α) :
    StateM Model (Except Files.Fault α) :=
  fun s => (question s.files, s)

def change {α : Type} (answer : α) (step : Files.Tree → Except Files.Fault Files.Tree) :
    StateM Model (Except Files.Fault α) := fun s =>
  match step s.files with
  | .ok files => (.ok answer, { s with files })
  | .error fault => (.error fault, s)

instance : Host (StateM Model) where
  kind path := look (·.kind path)
  read path := look (·.read path)
  makeDirectory path := change () (·.makeDirectory path)
  create path := change () (·.create path)
  append path bytes := change bytes.length (·.append path bytes)
  print text := modify fun s => { s with printed := s.printed ++ text }
  now := return (← get).clock
  load i := return i.run (← get).memory

end Model

end AccessTrace.Host
