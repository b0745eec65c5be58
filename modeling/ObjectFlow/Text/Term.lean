import ObjectFlow.Text.Quoted
import ObjectFlow.Decimal.Shortest
/-!
# Literal terms

Values as they are written in options and messages, and canonical terms: a term
of a kind with its fields is the same as another exactly if kind and fields are.
-/

namespace ObjectFlow

/-- A written value without parts. A real number is given by its bits. -/
inductive Atom where
  | null
  | bool (b : Bool)
  | int (n : Int)
  | real (bits : UInt64)
  | text (s : String)
deriving DecidableEq, Hashable

namespace Atom

/-- The written form: text is quoted. -/
def render : Atom → String
  | null => "None"
  | bool true => "True"
  | bool false => "False"
  | int n => toString n
  | real bits => Decimal.shortestText bits
  | text s => Text.quoted s

end Atom

/-- A written value. -/
inductive Term where
  | atom (a : Atom)
  | list (items : List Term)
  | record (entries : List (String × Term))
  | node (kind : String) (fields : List Term)

namespace Term

instance : Inhabited Term := ⟨atom .null⟩

/-! ## Making terms -/

def null : Term := atom .null

def bool (b : Bool) : Term := atom (.bool b)

def int (n : Int) : Term := atom (.int n)

def count (n : Nat) : Term := int n

def text (s : String) : Term := atom (.text s)

def texts (l : List String) : Term := list (l.map text)

/-- The term of a value that may be missing. -/
def ofOption {α : Type} (f : α → Term) : Option α → Term
  | some a => f a
  | none => null

/-! ## Taking terms apart -/

/-- The items of a list. A text counts as the list of its characters. -/
def items : Term → List Term
  | list items => items
  | atom (.text s) => s.toList.map fun c => text c.toString
  | _ => []

/-- An item of a list, null if there is none. -/
def item (t : Term) (i : Nat) : Term := (t.items[i]?).getD null

/-- The value of a key of a record, null if there is none. -/
def entry (t : Term) (key : String) : Term :=
  match t with
  | record entries => ((entries.find? fun e => decide (e.1 = key)).map Prod.snd).getD null
  | _ => null

def isNull : Term → Bool
  | atom .null => true
  | _ => false

/-- The text of a term that is one. -/
def toText : Term → String
  | atom (.text s) => s
  | _ => ""

/-- The integer of a term that is one; a truth value counts as zero or one. -/
def toInt : Term → Int
  | atom (.int n) => n
  | atom (.bool b) => b.toNat
  | _ => 0

/-- The truth value of a term that is one; an integer counts as true unless it is zero. -/
def toBool : Term → Bool
  | atom (.bool b) => b
  | atom (.int n) => n ≠ 0
  | _ => false

/-! ## Written forms -/

/-- Texts joined by commas. -/
def commas (parts : List String) : String := ", ".intercalate parts

mutual
def render : Term → String
  | atom a => a.render
  | list items => "[" ++ commas (renderAll items) ++ "]"
  | record entries => "\x7b" ++ commas (renderEntries entries) ++ "\x7d"
  | node kind fields => kind ++ "(" ++ commas (renderAll fields) ++ ")"

def renderAll : List Term → List String
  | [] => []
  | t :: ts => render t :: renderAll ts

def renderEntries : List (String × Term) → List String
  | [] => []
  | (k, t) :: es => (Text.quoted k ++ ": " ++ render t) :: renderEntries es
end

/-- The plain form: like the written form, but a text that stands alone is not quoted. -/
def display : Term → String
  | atom (.text s) => s
  | t => t.render

/-! ## Equality -/

mutual
def decEq : (s t : Term) → Decidable (s = t)
  | atom a, atom b => decidable_of_iff (a = b) (by simp)
  | list xs, list ys => @decidable_of_iff _ (xs = ys) (by simp) (decEqAll xs ys)
  | record xs, record ys => @decidable_of_iff _ (xs = ys) (by simp) (decEqEntries xs ys)
  | node j xs, node k ys =>
    @decidable_of_iff _ (j = k ∧ xs = ys) (by simp) (@instDecidableAnd _ _ _ (decEqAll xs ys))
  | atom _, list _ | atom _, record _ | atom _, node _ _ => isFalse (by simp)
  | list _, atom _ | list _, record _ | list _, node _ _ => isFalse (by simp)
  | record _, atom _ | record _, list _ | record _, node _ _ => isFalse (by simp)
  | node _ _, atom _ | node _ _, list _ | node _ _, record _ => isFalse (by simp)

def decEqAll : (xs ys : List Term) → Decidable (xs = ys)
  | [], [] => isTrue rfl
  | x :: xs, y :: ys =>
    @decidable_of_iff _ (x = y ∧ xs = ys) (by simp)
      (@instDecidableAnd _ _ (decEq x y) (decEqAll xs ys))
  | [], _ :: _ | _ :: _, [] => isFalse (by simp)

def decEqEntries : (xs ys : List (String × Term)) → Decidable (xs = ys)
  | [], [] => isTrue rfl
  | (j, x) :: xs, (k, y) :: ys =>
    @decidable_of_iff _ (j = k ∧ x = y ∧ xs = ys) (by simp [and_assoc])
      (@instDecidableAnd _ _ _ (@instDecidableAnd _ _ (decEq x y) (decEqEntries xs ys)))
  | [], _ :: _ | _ :: _, [] => isFalse (by simp)
end

instance : DecidableEq Term := decEq

end Term

end ObjectFlow
