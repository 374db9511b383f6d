import LoxLang.Proofs.Running.Lockstep

namespace LoxLang.Coupling

variable {C : Coupling} {w Γ : List C.Label}

theorem findAt_runs {name name' : Token} (d : Nat)
    (hd : Γ.length < d → C.allowed (.defect .invalidDistance))
    (hname : name'.lexeme = C.rename (C.head (Γ.drop d)) name.lexeme) :
    C.Runs w Γ C.Values (fun _ => Exec.findAt name d) (Exec.findAt name' d) := by
  apply Runs.get
  intro v s s' _ hs hc
  simp only [Frames.findAt?, hs.chain, hname]
  cases hout : s.chain.out? d with
  | none =>
    apply Runs.throw
    apply hd
    rw [← hc.links_eq]
    exact (Chain.out?_eq_none_iff _ _).1 hout
  | some c =>
    have hfind := (hs.frame _ _ (hc.out? hout).frame).find? (C.rename_injective _) name.lexeme
    simp only [Option.map_some]
    generalize (s.frames.frame c.frame).find? name.lexeme = x at hfind ⊢
    generalize (s'.frames.frame c.frame).find? _ = x' at hfind ⊢
    cases hfind with
    | none => exact value_runs .nil
    | some hx => exact value_runs hx

theorem assignAt_runs {name name' : Token} (d : Nat) {a a' : Value}
    (hd : Γ.length < d → C.allowed (.defect .invalidDistance))
    (hname : C.Declared (C.head (Γ.drop d)) name name') (ha : C.Values w a a') :
    C.Runs w Γ (fun _ _ _ => True) (fun _ => Exec.assignAt name a d) (Exec.assignAt name' a' d) := by
  apply Runs.get
  intro v s s' hv hs hc
  simp only [hs.chain]
  cases hout : s.chain.out? d with
  | none =>
    apply Runs.throw
    apply hd
    rw [← hc.links_eq]
    exact (Chain.out?_eq_none_iff _ _).1 hout
  | some c =>
    rw [hname.1]
    apply Runs.update
    intro x t t' hx ht _
    exact ⟨ht.define (getElem?_mono hx (hc.out? hout).frame) hname.2 (ha.mono (hv.trans hx)), rfl⟩

theorem find?_globals {s s' : Store} (hs : C.Stores w s s') (name : String) :
    Option.Rel (C.Values w) (s.frames.find? name globals) (s'.frames.find? name globals) := by
  have hfind := (hs.frame 0 C.top hs.top).find? (C.rename_injective _) name
  rwa [C.rename_top] at hfind

theorem find_globals_runs {name name' : Token} (hname : name'.lexeme = name.lexeme)
    (hline : name'.line = name.line) :
    C.Runs w Γ C.Values (fun _ => Exec.find name globals) (Exec.find name' globals) := by
  apply Runs.get
  intro v s s' _ hs _
  have hfind := find?_globals hs name.lexeme
  rw [hname, hline]
  generalize s.frames.find? name.lexeme globals = x at hfind ⊢
  generalize s'.frames.find? name.lexeme globals = x' at hfind ⊢
  cases hfind with
  | none => exact .fault _ _
  | some hx => exact value_runs hx

theorem assign_globals_runs {name name' : Token} {a a' : Value} (hname : name'.lexeme = name.lexeme)
    (hline : name'.line = name.line) (ha : C.Values w a a') :
    C.Runs w Γ (fun _ _ _ => True) (fun _ => Exec.assign name a globals)
      (Exec.assign name' a' globals) := by
  apply Runs.get
  intro v s s' hv hs _
  have hframe := hs.frame 0 C.top hs.top
  have hcontains := hframe.contains_eq (C.rename_injective _) name.lexeme
  rw [C.rename_top] at hcontains
  simp only [hname, hline, globals, Frames.holder?, hcontains]
  by_cases hheld : (s.frames.frame 0).contains name.lexeme = true
  · simp only [hheld, if_true]
    apply Runs.update
    intro y t t' hy ht _
    have hdefine := ht.define ht.top (hframe.holds hheld) (ha.mono (hv.trans hy))
    rw [C.rename_top] at hdefine
    exact ⟨hdefine, rfl⟩
  · simp only [hheld]
    exact .fault _ _

theorem read_byDistance {name name' : Token} {hops : Option Nat} (hline : name'.line = name.line)
    (hname : match hops with
      | none => name'.lexeme = name.lexeme
      | some d => (Γ.length < d → C.allowed (.defect .invalidDistance)) ∧
        name'.lexeme = C.rename (C.head (Γ.drop d)) name.lexeme) :
    C.Runs w Γ C.Values (fun _ => Addressing.byDistance.read name hops)
      (Addressing.byDistance.read name' hops) := by
  cases hops with
  | none => exact find_globals_runs hname hline
  | some d => exact findAt_runs d hname.1 hname.2

theorem write_byDistance {name name' : Token} {hops : Option Nat} {a a' : Value}
    (hline : name'.line = name.line)
    (hname : match hops with
      | none => name'.lexeme = name.lexeme
      | some d => (Γ.length < d → C.allowed (.defect .invalidDistance)) ∧
        C.Declared (C.head (Γ.drop d)) name name')
    (ha : C.Values w a a') :
    C.Runs w Γ (fun _ _ _ => True) (fun _ => Addressing.byDistance.write name hops a)
      (Addressing.byDistance.write name' hops a') := by
  cases hops with
  | none => exact assign_globals_runs hname hline ha
  | some d => exact assignAt_runs d hname.1 hname.2 ha

end LoxLang.Coupling
