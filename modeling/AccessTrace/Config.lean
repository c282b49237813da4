import AccessTrace.Budget
import AccessTrace.PageActivity

/-!
The settings of an ingestion.
-/

namespace AccessTrace

structure Config where
  pages : PageConfig := {}
  budget : Budget := {}
  /-- Whether a bad region line ends the load. -/
  strictRegions : Bool := false
  /-- Whether chunks keep their records. -/
  retainDetail : Bool := false
  /-- The number of batches that may be on their way to the processor. -/
  channelCapacity : Nat := 4
  /-- The number of chunks that may hold records read again. -/
  hydratedChunks : Nat := 4
deriving DecidableEq

namespace Config

inductive Fault
  | zeroPageSize
  | marginAboveAll (percent : Nat)
  | noChannel
deriving DecidableEq, Repr

def Fault.message : Fault → String
  | .zeroPageSize => "page size must be greater than 0"
  | .marginAboveAll percent => s!"relative margin {percent}% exceeds 100%"
  | .noChannel => "channel capacity must be greater than 0"

def validate (c : Config) : Except Fault Unit :=
  if c.pages.pageSize = 0 then .error .zeroPageSize
  else if 100 < c.budget.relativeMarginPercent then
    .error (.marginAboveAll c.budget.relativeMarginPercent.toNat)
  else if c.channelCapacity = 0 then .error .noChannel
  else .ok ()

theorem channelCapacity_pos_of_validate {c : Config} (h : c.validate = .ok ()) :
    0 < c.channelCapacity := by
  unfold validate at h
  repeat' split at h
  all_goals first | contradiction | omega

theorem relativeMarginPercent_le_of_validate {c : Config} (h : c.validate = .ok ()) :
    c.budget.relativeMarginPercent ≤ 100 := by
  unfold validate at h
  split at h
  · contradiction
  · split at h
    · contradiction
    · exact UInt64.not_lt.1 ‹_›

end Config

end AccessTrace
