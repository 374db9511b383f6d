import LoxLang.Addressing
import LoxLang.Proofs.Stopping

namespace LoxLang

namespace Chain

variable {P : Chain → Prop}

theorem forall_out?_root {f : Nat} : (∀ d b, (root f).out? d = some b → P b) ↔ P (root f) := by
  refine ⟨fun h => h 0 _ rfl, fun h d b hd => ?_⟩
  cases d with
  | zero => exact Option.some.inj hd ▸ h
  | succ d => simp [out?] at hd

theorem forall_out?_link {f : Nat} {outer : Chain} : (∀ d b, (link f outer).out? d = some b → P b) ↔
    P (link f outer) ∧ ∀ d b, outer.out? d = some b → P b := by
  refine ⟨fun h => ⟨h 0 _ rfl, fun d => h (d + 1)⟩, fun ⟨hlink, houter⟩ d b hd => ?_⟩
  cases d with
  | zero => exact Option.some.inj hd ▸ hlink
  | succ d => exact houter d b hd

end Chain

namespace Frames

variable {α : Type} {fs : Frames α} {name : String} {c b : Chain} {d : Nat} {v : α}

theorem find?_here (h : (fs.frame b.frame).find? name = some v) : fs.find? name b = some v := by
  cases b <;> simp_all [find?, Chain.frame]

theorem holder?_here (h : (fs.frame b.frame).contains name = true) : fs.holder? name b = some b.frame := by
  cases b <;> simp_all [holder?, Chain.frame]

theorem find?_passed (hd : c.out? d = some b)
    (hskip : ∀ k < d, ∀ e, c.out? k = some e → (fs.frame e.frame).contains name = false) :
    fs.find? name c = fs.find? name b ∧ fs.holder? name c = fs.holder? name b := by
  induction c generalizing d with
  | root f =>
    cases d with
    | zero =>
      obtain rfl := Option.some.inj hd
      exact ⟨rfl, rfl⟩
    | succ d => simp [Chain.out?] at hd
  | link f outer ih =>
    cases d with
    | zero =>
      obtain rfl := Option.some.inj hd
      exact ⟨rfl, rfl⟩
    | succ d =>
      obtain ⟨hfind, hholder⟩ := ih hd fun k hk e he => hskip (k + 1) (by omega) e he
      have habsent : (fs.frame f).contains name = false := hskip 0 (by omega) _ rfl
      have hnone : (fs.frame f).find? name = none := by simpa [Bindings.contains] using habsent
      simp only [find?, holder?, hnone, habsent, Option.none_or, Bool.false_eq_true, if_false]
      exact ⟨hfind, hholder⟩

theorem find?_eq_none_iff : fs.find? name c = none ↔
    ∀ d b, c.out? d = some b → (fs.frame b.frame).contains name = false := by
  induction c with
  | root f =>
    rw [Chain.forall_out?_root]
    simp [find?, Bindings.contains, Chain.frame]
  | link f outer ih =>
    rw [Chain.forall_out?_link, ← ih]
    simp [find?, Bindings.contains, Chain.frame]

theorem holder?_eq_none_iff : fs.holder? name c = none ↔
    ∀ d b, c.out? d = some b → (fs.frame b.frame).contains name = false := by
  induction c with
  | root f =>
    rw [Chain.forall_out?_root]
    simp [holder?, Chain.frame]
  | link f outer ih =>
    rw [Chain.forall_out?_link, ← ih]
    cases hf : (fs.frame f).contains name <;> simp [holder?, Chain.frame, hf]

end Frames

section actions

variable {name : Token} {v : Value} {s : Store}

theorem find_apply (c : Chain) : Exec.find name c s =
    match s.frames.find? name.lexeme c with
    | some v => .ok v s
    | none => .error (.fault ⟨.undefinedVariable name.lexeme, some name.line⟩) s := by
  rw [Exec.find, Stopping.get_bind]
  cases s.frames.find? name.lexeme c <;> rfl

theorem assign_apply (c : Chain) : Exec.assign name v c s =
    match s.frames.holder? name.lexeme c with
    | some f => .ok () { s with frames := s.frames.define f name.lexeme v }
    | none => .error (.fault ⟨.undefinedVariable name.lexeme, some name.line⟩) s := by
  rw [Exec.assign, Stopping.get_bind]
  cases s.frames.holder? name.lexeme c <;> rfl

theorem findAt_apply (c : Chain) (d : Nat) : Exec.within c (Exec.findAt name d) s =
    match c.out? d with
    | some b => .ok (((s.frames.frame b.frame).find? name.lexeme).getD .nil) s
    | none => .error (.defect .invalidDistance) s := by
  simp only [Exec.within, Exec.findAt, Stopping.get_bind, Frames.findAt?]
  cases c.out? d <;> rfl

theorem assignAt_apply (c : Chain) (d : Nat) : Exec.within c (Exec.assignAt name v d) s =
    match c.out? d with
    | some b => .ok () { s with frames := s.frames.define b.frame name.lexeme v }
    | none => .error (.defect .invalidDistance) s := by
  simp only [Exec.within, Exec.assignAt, Stopping.get_bind]
  cases c.out? d <;> rfl

end actions

end LoxLang
