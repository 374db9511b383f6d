import LoxLang.Evaluator
import LoxLang.Proofs.Stopping
import LoxLang.Proofs.Running.Operators

namespace LoxLang.Exec

open Stopping

variable {α β : Type}

/-- The lines of all faults of an action are of some kind. -/
def Faults (P : Option Int → Prop) (p : Exec α) : Prop := ∀ s f t, p s = .error (.fault f) t → P f.line

namespace Faults

variable {P : Option Int → Prop}

theorem pure (a : α) : Faults P (Pure.pure a) := nofun

theorem fault (cause : Fault.Cause) {line : Option Int} (h : P line) : Faults P (Exec.fault cause line : Exec α) :=
  fun _ _ _ hs => by cases hs; exact h

theorem defect (d : Defect) : Faults P (Exec.defect d : Exec α) := nofun

theorem endless : Faults P (Exec.endless : Exec α) := nofun

theorem look : Faults P (MonadState.get : Exec Store) := nofun

theorem modifyGet (f : Store → α × Store) : Faults P (MonadStateOf.modifyGet f : Exec α) := nofun

theorem bind {p : Exec α} {k : α → Exec β} (hp : Faults P p) (hk : ∀ a, Faults P (k a)) : Faults P (p >>= k) := by
  intro s f t h
  cases hs : p s with
  | ok a u => exact hk a u f t ((bind_ok hs).symm.trans h)
  | error e u =>
    rw [bind_error hs] at h
    cases h
    exact hp s f t hs

theorem get {k : Store → Exec β} (hk : ∀ s, Faults P (k s)) : Faults P ((MonadState.get : Exec Store) >>= k) :=
  fun s => hk s s

theorem text (v : Value) : Faults P (Exec.text v) := by
  refine get fun s => ?_
  cases v.text? s.lists with
  | some t => exact pure t
  | none => exact endless

theorem define (name : String) (v : Value) : Faults P (Exec.define name v) := get fun _ => modifyGet _

theorem bindTo (r : Routine) (self : Value) : Faults P (r.bindTo self) := (modifyGet _).bind fun _ => pure _

theorem of_acts {line : Option Int} {post : α → α → Prop} {p : Exec α}
    (h : Acts line line (Value.Itself fun _ => True) post p p) (hline : P line) : Faults P p := by
  intro s f t hs
  obtain ⟨l, c, -, ⟨a, -, hp⟩ | ⟨e, he, hp⟩⟩ := h.alone (s := s) fun _ _ _ => trivial
  · rw [hp] at hs
    cases hs
  · rw [hp] at hs
    cases hs
    cases he
    exact hline

section tokens

variable {name op : Token}

theorem read (hops : Option Nat) (h : P name.line) : Faults P (Addressing.byDistance.read name hops) := by
  cases hops with
  | some d =>
    refine get fun s => ?_
    cases s.frames.findAt? s.chain d name.lexeme with
    | some v => exact pure _
    | none => exact defect _
  | none =>
    refine get fun s => ?_
    cases s.frames.find? name.lexeme globals with
    | some v => exact pure v
    | none => exact fault _ h

theorem write (hops : Option Nat) (v : Value) (h : P name.line) :
    Faults P (Addressing.byDistance.write name hops v) := by
  cases hops with
  | some d =>
    refine get fun s => ?_
    cases s.chain.out? d with
    | some c => exact modifyGet _
    | none => exact defect _
  | none =>
    refine get fun s => ?_
    cases s.frames.holder? name.lexeme globals with
    | some f => exact modifyGet _
    | none => exact fault _ h

theorem property (object : Value) (h : P name.line) : Faults P (Evaluator.property object name) := by
  unfold Evaluator.property
  split
  · refine get fun s => ?_
    split
    · exact pure _
    · exact (bindTo _ _).bind fun _ => (modifyGet _).bind fun _ => pure _
    · exact fault _ h
  · exact fault _ h

theorem unary (v : Value) (h : P op.line) : Faults P (v.unary op) :=
  of_acts (Acts.unary Value.Itself.lookalike_true rfl ⟨rfl, trivial⟩) h

theorem binary (a b : Value) (h : P op.line) : Faults P (Value.binary op a b) :=
  of_acts (Acts.binary Value.Itself.lookalike_true rfl ⟨rfl, trivial⟩ ⟨rfl, trivial⟩) h

end tokens

theorem native (n : Native) {args : List Value} (hcount : args.length = n.arity) (h : P none) :
    Faults P (n.apply args) :=
  of_acts (Acts.native Value.Itself.lookalike_true (Value.Itself.forall₂ fun _ _ => trivial) n hcount) h

end Faults

end LoxLang.Exec
