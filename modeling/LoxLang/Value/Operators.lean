import LoxLang.Store

namespace LoxLang.Value

def unary (op : Token) (v : Value) : Exec Value :=
  match op.kind, v with
  | .bang, v => pure (.bool !v.truthy)
  | .minus, .number x => pure (.number (-x))
  | .minus, _ => Exec.fault (.notANumber 1) op.line
  | _, _ => Exec.fault .badUnary op.line

def arithmetic (op : Token) (x y : Float) : Exec Value :=
  match op.kind with
  | .minus => pure (.number (x - y))
  | .star => pure (.number (x * y))
  | .slash => if y == 0 then Exec.fault .divisionByZero op.line else pure (.number (x / y))
  | .greater => pure (.bool (decide (x > y)))
  | .greaterEqual => pure (.bool (decide (x ≥ y)))
  | .less => pure (.bool (decide (x < y)))
  | .lessEqual => pure (.bool (decide (x ≤ y)))
  | _ => Exec.fault .badBinary op.line

/-- Two numbers add up, and a text takes the text of the other operand. -/
def plus (op : Token) (l r : Value) : Exec Value := do
  match l, r with
  | .number x, .number y => pure (.number (x + y))
  | .text s, .text t => pure (.text (s ++ t))
  | .text s, v => return .text (s ++ (← Exec.text v))
  | v, .text t => return .text ((← Exec.text v) ++ t)
  | _, _ => Exec.fault .notAddable op.line

def needsNumbers (kind : Token.Kind) : Bool :=
  kind ∈ [.minus, .star, .slash, .greater, .greaterEqual, .less, .lessEqual]

def binary (op : Token) (l r : Value) : Exec Value :=
  if op.kind = .equalEqual then pure (.bool (l.same r))
  else if op.kind = .bangEqual then pure (.bool !(l.same r))
  else if op.kind = .plus then plus op l r
  else if needsNumbers op.kind then
    match l, r with
    | .number x, .number y => arithmetic op x y
    | _, _ => Exec.fault (.notANumber 2) op.line
  else Exec.fault .badBinary op.line

end LoxLang.Value
