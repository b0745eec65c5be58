import ObjectFlow.Dataflow.Fact
import ObjectFlow.Program.Expr
/-!
# Constants of 32 bits

What is known of an integer variable: nothing yet, one value, or that it has no
single value. Arithmetic is that of 32-bit words in two's complement: results
wrap, division truncates toward zero, a remainder has the sign of the dividend,
and shifts count modulo 32.
-/

namespace ObjectFlow

inductive Value where
  | undef
  | const (n : Int32)
  | nac
deriving DecidableEq

namespace Value

/-- The value of an integer, wrapped to 32 bits. -/
def ofInt (n : Int) : Value := const (Int32.ofInt n)

def isUndef : Value → Bool
  | undef => true
  | _ => false

def isNac : Value → Bool
  | nac => true
  | _ => false

def constant? : Value → Option Int32
  | const n => some n
  | _ => none

def isConstant (v : Value) : Bool := v.constant?.isSome

def render : Value → String
  | undef => "UNDEF"
  | const n => toString n.toInt
  | nac => "NAC"

instance : Bottom Value := ⟨undef⟩

/-- The least value that covers both. -/
def meet (v w : Value) : Value :=
  match v, w with
  | nac, _ | _, nac => nac
  | undef, w => w
  | v, undef => v
  | const a, const b => if a = b then const a else nac

end Value

/-! ## Arithmetic -/

def wordOfBool (b : Bool) : Int32 := if b then 1 else 0

/-- The shift count of an integer. -/
def shiftCount (b : Int) : Nat := (b % 32).toNat

/-- What a shift by some places multiplies or divides by. -/
def shiftFactor (places : Nat) : Int := Int.ofNat (Nat.pow 2 places)

/-- The value of an operation on two integers, wrapped to 32 bits. Nothing divides by zero. -/
def BinaryOp.fold (op : BinaryOp) (a b : Int) : Option Int32 :=
  match op with
  | .add => some (Int32.ofInt (a + b))
  | .sub => some (Int32.ofInt (a - b))
  | .mul => some (Int32.ofInt (a * b))
  | .div => if b = 0 then none else some (Int32.ofInt (a.tdiv b))
  | .rem => if b = 0 then none else some (Int32.ofInt (a.tmod b))
  | .and => some (Int32.ofInt a &&& Int32.ofInt b)
  | .or => some (Int32.ofInt a ||| Int32.ofInt b)
  | .xor => some (Int32.ofInt a ^^^ Int32.ofInt b)
  | .shl => some (Int32.ofInt (a * shiftFactor (shiftCount b)))
  | .shr => some (Int32.ofInt (a / shiftFactor (shiftCount b)))
  | .ushr => some (Int32.ofInt (a % shiftFactor 32 / shiftFactor (shiftCount b)))
  | .eq => some (wordOfBool (decide (a = b)))
  | .ne => some (wordOfBool (decide (a ≠ b)))
  | .lt => some (wordOfBool (decide (a < b)))
  | .le => some (wordOfBool (decide (a ≤ b)))
  | .gt => some (wordOfBool (decide (b < a)))
  | .ge => some (wordOfBool (decide (b ≤ a)))

/-- What is known of the variables of a method. -/
abbrev ConstFact := Fact Var Value

namespace Value

/-- An operation on two values: dividing by zero gives nothing, two constants give a constant,
and otherwise a value that is not constant makes the result not constant. -/
def binary (op : BinaryOp) (v w : Value) : Value :=
  if (op = .div ∨ op = .rem) ∧ w = const 0 then undef
  else match v, w with
    | const a, const b =>
      match op.fold a.toInt b.toInt with
      | some n => const n
      | none => undef
    | nac, _ | _, nac => nac
    | _, _ => undef

end Value

/-- The value of a variable under a fact; only integer variables are tracked. -/
def Var.value (v : Var) (f : ConstFact) : Value := if v.type.holdsInt then f.get v else .nac

/-- The value of an expression under a fact. Only variables, literals and operations on them can
be constant. -/
def Expr.value (f : ConstFact) : Expr → Value
  | var v => v.value f
  | literal n => .ofInt n
  | binary op l r => .binary op (l.value f) (r.value f)
  | alloc _ | field _ | element _ _ => .nac

end ObjectFlow
