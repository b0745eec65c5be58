/-!
# Reporting phases

Phases nest. Entering and leaving one is reported with the path of the open
phases. A phase is left even if what it did failed.
-/

namespace ObjectFlow

/-- The open phases, outermost first, and the lines reported so far. -/
structure PhaseLog where
  phases : List String
  lines : List String

namespace PhaseLog

def empty : PhaseLog := ⟨[], []⟩

instance : Inhabited PhaseLog := ⟨empty⟩

def path (l : PhaseLog) : String := "[ " ++ " | ".intercalate l.phases ++ " ]"

def report (l : PhaseLog) (line : String) : PhaseLog := { l with lines := l.lines ++ [line] }

def enter (l : PhaseLog) (name : String) : PhaseLog :=
  let l := { l with phases := l.phases ++ [name] }
  l.report ("begin " ++ l.path)

def leave (l : PhaseLog) : PhaseLog :=
  let l := l.report ("end   " ++ l.path)
  { l with phases := l.phases.dropLast }

/-- Does something within a phase. -/
def scope {α : Type} (name : String) (body : PhaseLog → α × PhaseLog) (l : PhaseLog) :
    α × PhaseLog :=
  let (a, l) := body (l.enter name)
  (a, l.leave)

end PhaseLog

end ObjectFlow
