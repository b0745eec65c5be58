import ObjectFlow.Collections.OrderedMap
import ObjectFlow.Text.Integer
import ObjectFlow.Text.Term
/-!
# Options of a run

A run is told how to tell contexts apart, how many rounds it may take and how
long the contexts of objects are. Options come as settings, that is values by
name, or as text `name=value;name=value`. Every text is either read as options
that hold or refused with the reason.
-/

namespace ObjectFlow

/-- Why options or the names in them were refused. -/
inductive OptionError where
  | emptySensitivity (given : Term)
  | negative (option : String) (given : Term)
  | notAnInteger (option text : String)
  | unknownOption (name : String)
  | malformedOption (item : String)
  | unknownSensitivity (name : String)
  | emptyContexts (name : String)
  | unknownAnalysis (given : Term)
deriving DecidableEq

namespace OptionError

def message : OptionError → String
  | emptySensitivity t => "cs must be a non-empty string, got " ++ t.render
  | negative o t => o ++ " must be a non-negative integer, got " ++ t.render
  | notAnInteger o s => o ++ " must be an integer, got " ++ Text.quoted s
  | unknownOption n => "unknown analysis option " ++ Text.quoted n
  | malformedOption i => "malformed analysis option " ++ Text.quoted i
  | unknownSensitivity n => "unknown context sensitivity " ++ Text.quoted n
  | emptyContexts n => "context length of " ++ Text.quoted n ++ " must be at least 1"
  | unknownAnalysis t => "unknown analysis " ++ t.render

end OptionError

/-- A bound, given as a number or as a truth value that counts as zero or one. -/
inductive Limit where
  | number (n : Nat)
  | flag (b : Bool)
deriving DecidableEq, Repr

namespace Limit

def toNat : Limit → Nat
  | number n => n
  | flag b => b.toNat

/-- The bound as it was given. -/
def toTerm : Limit → Term
  | number n => .atom (.int n)
  | flag b => .atom (.bool b)

/-- The bound that a value stands for, if it is a number that is not negative. -/
def ofTerm? : Term → Option Limit
  | .atom (.int (.ofNat n)) => some (number n)
  | .atom (.bool b) => some (flag b)
  | _ => none

end Limit

/-- The names under which options are set. -/
inductive OptionName where
  | sensitivity
  | maxIterations
  | heapDepth
deriving DecidableEq, Repr

namespace OptionName

def toString : OptionName → String
  | sensitivity => "cs"
  | maxIterations => "maxIterations"
  | heapDepth => "heapDepth"

def all : List OptionName := [sensitivity, maxIterations, heapDepth]

def ofString? (s : String) : Option OptionName := all.find? fun o => decide (o.toString = s)

end OptionName

/-- The options of a run. No bound on the rounds is written zero; without a heap depth the
contexts of objects are one shorter than those of methods. -/
structure Options where
  sensitivity : String
  maxIterations : Limit
  heapDepth : Option Limit
deriving DecidableEq

namespace Options

def default : Options := ⟨"ci", .number 0, none⟩

instance : Inhabited Options := ⟨default⟩

/-- The same options by value, whichever way the bounds were given. -/
def sameAs (a b : Options) : Bool :=
  decide (a.sensitivity = b.sensitivity) &&
  decide (a.maxIterations.toNat = b.maxIterations.toNat) &&
  decide (a.heapDepth.map Limit.toNat = b.heapDepth.map Limit.toNat)

def heapDepthTerm (o : Options) : Term :=
  match o.heapDepth with
  | none => .atom .null
  | some d => d.toTerm

def render (o : Options) : String :=
  "AnalysisOptions(cs=" ++ Text.quoted o.sensitivity ++
  ", maxIterations=" ++ o.maxIterations.toTerm.render ++
  ", heapDepth=" ++ o.heapDepthTerm.render ++ ")"

/-! ## From settings -/

/-- The name of a context selector, which is some text that is not empty. -/
def checkSensitivity : Option Term → Except OptionError String
  | none => .ok default.sensitivity
  | some t =>
    match t with
    | .atom (.text s) => if s = "" then .error (.emptySensitivity t) else .ok s
    | _ => .error (.emptySensitivity t)

def checkLimit (o : OptionName) (t : Term) : Except OptionError Limit :=
  match Limit.ofTerm? t with
  | some l => .ok l
  | none => .error (.negative o.toString t)

def checkMaxIterations : Option Term → Except OptionError Limit
  | none => .ok default.maxIterations
  | some t => checkLimit .maxIterations t

def checkHeapDepth : Option Term → Except OptionError (Option Limit)
  | none | some (.atom .null) => .ok none
  | some t => (checkLimit .heapDepth t).map some

/-- Options with the given values and defaults for the rest. -/
def ofValues (values : OrderedMap OptionName Term) : Except OptionError Options := do
  let sensitivity ← checkSensitivity (values.get? .sensitivity)
  let maxIterations ← checkMaxIterations (values.get? .maxIterations)
  let heapDepth ← checkHeapDepth (values.get? .heapDepth)
  pure ⟨sensitivity, maxIterations, heapDepth⟩

/-- The value of a setting: where a number is due, text is read as one. -/
def readValue (o : OptionName) (t : Term) : Except OptionError Term :=
  match o, t with
  | .sensitivity, t => .ok t
  | o, .atom (.text s) =>
    match Text.readInt? s with
    | some n => .ok (.atom (.int n))
    | none => .error (.notAnInteger o.toString s)
  | _, t => .ok t

/-- The values of settings, each read in turn; the first fault is reported. -/
def readValues : List (String × Term) → OrderedMap OptionName Term →
    Except OptionError (OrderedMap OptionName Term)
  | [], values => .ok values
  | (name, t) :: rest, values =>
    match OptionName.ofString? name with
    | none => .error (.unknownOption name)
    | some o => do
      let v ← readValue o t
      readValues rest (values.insert o v)

/-- Options by settings. -/
def ofSettings (settings : OrderedMap String Term) : Except OptionError Options := do
  let values ← readValues settings.entries ∅
  ofValues values

/-- Options by values that are taken as they are. There are none if a name is unknown. -/
def ofKeywords? (settings : OrderedMap String Term) :
    Option (Except OptionError Options) :=
  (settings.entries.mapM fun e => (OptionName.ofString? e.1).map fun o => (o, e.2)).map
    fun values => ofValues (.ofList values)

/-! ## From text -/

/-- The parts of a text between the separators. -/
def splitAt (separator : Char) : List Char → List (List Char)
  | [] => [[]]
  | c :: cs =>
    if c = separator then [] :: splitAt separator cs
    else match splitAt separator cs with
      | [] => [[c]]
      | p :: ps => (c :: p) :: ps

/-- One item: a name and a value around the first equals sign. -/
def readItem (item : List Char) : Except OptionError (String × Term) :=
  match item.span (· ≠ '=') with
  | (_, []) => .error (.malformedOption (String.ofList item))
  | (key, _ :: value) =>
    .ok (String.ofList (Text.trim key), .atom (.text (String.ofList (Text.trim value))))

/-- The settings that a text lists. Empty items are skipped, and of two settings of one name the
later counts. -/
def settingsOfText (s : String) : Except OptionError (OrderedMap String Term) := do
  let items := ((splitAt ';' s.toList).map Text.trim).filter (· ≠ [])
  let settings ← items.mapM readItem
  pure (.ofList settings)

/-- Options by text. -/
def parse (s : String) : Except OptionError Options := do
  let settings ← settingsOfText s
  ofSettings settings

end Options

end ObjectFlow
