import LoxLang.Store

namespace LoxLang.Native

def asList (n : Native) : Value → Exec Nat
  | .list id => pure id
  | _ => Exec.fault (.notAList n) none

def asIndex (n : Native) (size : Nat) : Value → Exec Nat
  | .number x =>
    match Number.toInt? x with
    | some i => if 0 ≤ i ∧ i < size then pure i.toNat else Exec.fault (.outOfRange i size) none
    | none => Exec.fault (.notAnIndex n) none
  | _ => Exec.fault (.notAnIndex n) none

def argument (args : List Value) (i : Nat) : Exec Value :=
  match args[i]? with
  | some v => pure v
  | none => Exec.defect .missingArgument

def place (n : Native) (args : List Value) : Exec (Nat × Nat) := do
  let id ← n.asList (← argument args 0)
  let index ← argument args 1
  let i ← n.asIndex (← Exec.items id).size index
  pure (id, i)

/-- Arguments beyond those a function uses are ignored. -/
def apply (n : Native) (args : List Value) : Exec Value :=
  match n with
  | .clock => return .number (← Exec.clock)
  | .get => do
    let (id, i) ← n.place args
    return (← Exec.items id)[i]?.getD .nil
  | .set => do
    let (id, i) ← n.place args
    let v ← argument args 2
    let old := (← Exec.items id)[i]?.getD .nil
    Exec.modifyItems id (·.setIfInBounds i v)
    pure old
  | .add => do
    let id ← n.asList (← argument args 0)
    let v ← argument args 1
    Exec.modifyItems id (·.push v)
    pure .nil
  | .size => do
    let id ← n.asList (← argument args 0)
    return .number (Float.ofNat (← Exec.items id).size)

end LoxLang.Native
