import LoxLang.Proofs.Lines.Store
import LoxLang.Proofs.Running.Rules

namespace LoxLang

open Stopping

abbrev Reruns {α β : Type} (f : Int → Int) (g : α → β) (p : Exec α) (p' : Exec β) : Prop :=
  Maps (Store.reline f) (Stop.reline f) g p p'

namespace Reruns

variable {f : Int → Int} {α β : Type} {g : α → β} {p : Exec α} {p' : Exec β}

theorem fault (cause : Fault.Cause) (line : Option Int) :
    Reruns f g (Exec.fault cause line) (Exec.fault cause (line.map f)) := .throw rfl

theorem defect (d : Defect) : Reruns f g (Exec.defect d) (Exec.defect d) := .throw rfl

theorem endless : Reruns f g Exec.endless Exec.endless := .throw rfl

theorem blaming (line : Int) (hp : Reruns f g p p') :
    Reruns f g (Exec.blaming line p) (Exec.blaming (f line) p') := by
  refine .of_ends (fun {s a t} h => ?_) fun {s e t} h => ?_
  · cases hps : p s with
    | ok b u =>
      rw [Exec.blaming_ok hps] at h
      cases h
      exact Exec.blaming_ok (hp.ok hps)
    | error e u =>
      rw [Exec.blaming_error hps] at h
      cases h
  · cases hps : p s with
    | ok b u =>
      rw [Exec.blaming_ok hps] at h
      cases h
    | error e' u =>
      rw [Exec.blaming_error hps] at h
      cases h
      rw [Exec.blaming_error (hp.error hps)]
      obtain ⟨cause, _ | n⟩ | d | _ := e' <;> rfl

theorem within (chain : Chain) (hp : Reruns f g p p') : Reruns f g (Exec.within chain p) (Exec.within chain p') := by
  intro s
  cases hps : p { s with chain } with
  | ok b u =>
    rw [Exec.within_ok hps]
    exact @Exec.within_ok _ p' chain (s.reline f) _ _ (hp.ok hps)
  | error e u =>
    rw [Exec.within_error hps]
    exact @Exec.within_error _ p' chain (s.reline f) _ _ (hp.error hps)

theorem pushFrame (contents : Bindings Value) (outer : Chain) :
    Reruns f id (Exec.pushFrame contents outer) (Exec.pushFrame (contents.map (Value.reline f)) outer) :=
  .modifyGet fun s => by simp [Store.reline]

theorem defineIn (frame : Nat) (name : String) (v : Value) :
    Reruns f id (Exec.defineIn frame name v) (Exec.defineIn frame name (v.reline f)) :=
  .update fun s => by simp [Store.reline]

theorem define (name : String) (v : Value) :
    Reruns f id (Exec.define name v) (Exec.define name (v.reline f)) :=
  .get fun s => defineIn _ name v s

theorem freshId : Reruns f id Exec.freshId Exec.freshId := .modifyGet fun _ => rfl

theorem newList (items : Array Value) :
    Reruns f (Value.reline f) (Exec.newList items) (Exec.newList (items.map (Value.reline f))) :=
  .modifyGet fun s => by simp [Store.reline, Value.reline]

theorem newObject (c : Class) : Reruns f (Value.reline f) (Exec.newObject c) (Exec.newObject (c.reline f)) :=
  .modifyGet fun s => by simp [Store.reline, Value.reline, Bindings.map]

theorem setField (i : Nat) (name : String) (v : Value) :
    Reruns f id (Exec.setField i name v) (Exec.setField i name (v.reline f)) :=
  .update fun s => by
    simp only [Store.reline, Bindings.map_modify_put]

theorem print (text : String) : Reruns f id (Exec.print text) (Exec.print text) := .update fun _ => rfl

theorem of_acts {line : Option Int}
    (h : Acts line (line.map f) (fun v v' => v' = v.reline f) (fun a b => b = g a) p p') : Reruns f g p p' := by
  intro s
  obtain ⟨l, l', c, hl, hends⟩ := h s (s.reline f) (Slots.map_map_iff.2 rfl) rfl
  obtain rfl := Slots.map_map_iff.1 hl
  obtain ⟨a, b, rfl, hp, hp'⟩ | ⟨e, e', he, hp, hp'⟩ := hends
  · rw [hp, hp']
    rfl
  · rw [hp, hp']
    cases he <;> rfl

theorem text (v : Value) : Reruns f id (Exec.text v) (Exec.text (v.reline f)) := by
  have hacts : Acts none none _ _ _ _ := Acts.text (Value.lookalike_reline f) (a := v) rfl
  exact of_acts hacts

end Reruns

section operators

variable {f : Int → Int}

theorem unary_reruns (op : Token) (v : Value) :
    Reruns f (Value.reline f) (v.unary op) ((v.reline f).unary (op.reline f)) :=
  .of_acts (Acts.unary (Value.lookalike_reline f) (op.kind_reline f) rfl)

theorem binary_reruns (op : Token) (v w : Value) :
    Reruns f (Value.reline f) (Value.binary op v w) (Value.binary (op.reline f) (v.reline f) (w.reline f)) :=
  .of_acts (Acts.binary (Value.lookalike_reline f) (op.kind_reline f) rfl rfl)

theorem native_reruns (n : Native) {args : List Value} (hcount : args.length = n.arity) :
    Reruns f (Value.reline f) (n.apply args) (n.apply (args.map (Value.reline f))) :=
  .of_acts (Acts.native (Value.lookalike_reline f) (List.forall₂_map_right_iff.2 (List.forall₂_same.2 fun _ _ => rfl)) n
    hcount)

end operators

section accesses

variable {f : Int → Int}

theorem find_reruns (name : Token) (chain : Chain) :
    Reruns f (Value.reline f) (Exec.find name chain) (Exec.find (name.reline f) chain) := by
  refine .get fun s => ?_
  rw [Store.frames_reline, Frames.find?_map, Token.lexeme_reline]
  cases s.frames.find? name.lexeme chain <;> rfl

theorem assign_reruns (name : Token) (v : Value) (chain : Chain) :
    Reruns f id (Exec.assign name v chain) (Exec.assign (name.reline f) (v.reline f) chain) := by
  refine .get fun s => ?_
  rw [Store.frames_reline, Frames.holder?_map, Token.lexeme_reline]
  cases s.frames.holder? name.lexeme chain with
  | none => rfl
  | some n => exact Reruns.defineIn n name.lexeme v s

theorem findAt_reruns (name : Token) (distance : Nat) :
    Reruns f (Value.reline f) (Exec.findAt name distance) (Exec.findAt (name.reline f) distance) := by
  refine .get fun s => ?_
  rw [Store.frames_reline, Store.chain_reline, Frames.findAt?_map, Token.lexeme_reline]
  obtain _ | _ | v := s.frames.findAt? s.chain distance name.lexeme <;> rfl

theorem assignAt_reruns (name : Token) (v : Value) (distance : Nat) :
    Reruns f id (Exec.assignAt name v distance) (Exec.assignAt (name.reline f) (v.reline f) distance) := by
  refine .get fun s => ?_
  rw [Store.chain_reline, Token.lexeme_reline]
  cases s.chain.out? distance with
  | none => rfl
  | some chain => exact Reruns.defineIn chain.frame name.lexeme v s

theorem read_reruns (name : Token) (hops : Option Nat) : Reruns f (Value.reline f)
    (Addressing.byDistance.read name hops) (Addressing.byDistance.read (name.reline f) hops) := by
  cases hops with
  | none => exact find_reruns name globals
  | some d => exact findAt_reruns name d

theorem write_reruns (name : Token) (hops : Option Nat) (v : Value) : Reruns f id
    (Addressing.byDistance.write name hops v) (Addressing.byDistance.write (name.reline f) hops (v.reline f)) := by
  cases hops with
  | none => exact assign_reruns name v globals
  | some d => exact assignAt_reruns name v d

end accesses

section routines

variable (f : Int → Int)

theorem Routine.arity_reline (r : Routine) : (r.reline f).arity = r.arity := by simp [arity, reline]

theorem Class.initializer?_reline (c : Class) :
    (c.reline f).initializer? = c.initializer?.map (Routine.reline f) := Bindings.find?_map _ _ _

theorem Class.arity_reline (c : Class) : (c.reline f).arity = c.arity := by
  unfold arity
  rw [initializer?_reline]
  cases c.initializer? with
  | none => rfl
  | some r => exact r.arity_reline f

theorem bindAll_reline (params : List Token) (args : List Value) :
    bindAll (params.map (Token.reline f)) (args.map (Value.reline f)) = (bindAll params args).map (Value.reline f) := by
  have hfold : ∀ b : Bindings Value,
      ((params.map (Token.reline f)).zip (args.map (Value.reline f))).foldl (fun b x => b.put x.1.lexeme x.2)
          (b.map (Value.reline f)) =
        ((params.zip args).foldl (fun b x => b.put x.1.lexeme x.2) b).map (Value.reline f) := by
    induction params generalizing args with
    | nil => exact fun _ => rfl
    | cons p ps ih =>
      cases args with
      | nil => exact fun _ => rfl
      | cons v vs =>
        intro b
        have h := ih vs (b.put p.lexeme v)
        rw [Bindings.map_put] at h
        exact h
  exact hfold ⟨[]⟩

theorem Outcome.value_reline (o : Outcome) : (o.reline f).value = o.value.reline f := by cases o <;> rfl

theorem Routine.result_reline (r : Routine) (o : Outcome) (s : Store) :
    (r.reline f).result (o.reline f) (s.reline f) = (r.result o s).reline f := by
  unfold result
  change (if r.isInitializer then _ else _) = _
  split
  · rw [Store.frames_reline, Frames.frame_map, Bindings.find?_map]
    change (((s.frames.frame r.closure.frame).find? selfName).map (Value.reline f)).getD .nil = _
    cases (s.frames.frame r.closure.frame).find? selfName <;> rfl
  · exact o.value_reline f

theorem methodTable_reline (closure : Chain) (ms : List Method) :
    Evaluator.methodTable closure (ms.map (Method.reline f)) =
      (Evaluator.methodTable closure ms).map (Routine.reline f) := by
  have hfold : ∀ (b : Bindings Routine) (g : Method → Routine), (∀ m, g (m.reline f) = (g m).reline f) →
      (ms.map (Method.reline f)).foldl (fun b m => b.put m.name.lexeme (g m)) (b.map (Routine.reline f)) =
        (ms.foldl (fun b m => b.put m.name.lexeme (g m)) b).map (Routine.reline f) := by
    intro b g hg
    induction ms generalizing b with
    | nil => rfl
    | cons m ms ih =>
      have h := ih (b.put m.name.lexeme (g m))
      rw [Bindings.map_put, ← hg] at h
      exact h
  exact hfold ⟨[]⟩ (fun m => ⟨m.name.lexeme, m.definition, closure, m.name.lexeme = initializerName⟩) fun _ => rfl

variable {f}

theorem bindTo_reruns (r : Routine) (v : Value) :
    Reruns f (Routine.reline f) (r.bindTo v) ((r.reline f).bindTo (v.reline f)) :=
  (Reruns.pushFrame ⟨[(selfName, v)]⟩ r.closure).map fun _ => rfl

end routines

/-- What is below a node runs on other lines as it does on the old ones. -/
structure Evaluator.Relined (f : Int → Int) (m : Evaluator) : Prop where
  read : ∀ name hops,
    Reruns f (Value.reline f) (m.addressing.read name hops) (m.addressing.read (name.reline f) hops)
  write : ∀ name hops v,
    Reruns f id (m.addressing.write name hops v) (m.addressing.write (name.reline f) hops (v.reline f))
  eval : ∀ e, Reruns f (Value.reline f) (m.eval e) (m.eval (e.reline f))
  exec : ∀ t, Reruns f (Outcome.reline f) (m.exec t) (m.exec (t.reline f))

theorem Reruns.passes {f : Int → Int} {test test' : Exec Bool} {body body' : Exec Outcome} {step step' : Exec Unit}
    (htest : Reruns f id test test') (hbody : Reruns f (Outcome.reline f) body body') (hstep : Reruns f id step step')
    (n : Nat) : Reruns f (Outcome.reline f) (Exec.passes test body step n) (Exec.passes test' body' step' n) := by
  induction n with
  | zero => exact .endless
  | succ n ih =>
    rw [Exec.passes_succ, Exec.passes_succ]
    refine htest.bind fun go => .ite .rfl (hbody.bind fun o => ?_) (.pure rfl)
    cases o with
    | broken | returned => exact .pure rfl
    | normal | continued => exact hstep.bind fun _ => ih

namespace Evaluator.Relined

variable {f : Int → Int} {m : Evaluator} (h : m.Relined f)

include h

theorem evalAll (es : List Expr) :
    Reruns f (List.map (Value.reline f)) (m.evalAll es) (m.evalAll (relineExprs f es)) := by
  induction es with
  | nil => exact .pure rfl
  | cons e es ih => exact (h.eval e).bind fun _ => ih.map fun _ => rfl

theorem sequence (ts : List Stmt) :
    Reruns f (Outcome.reline f) (m.sequence ts) (m.sequence (relineStmts f ts)) := by
  induction ts with
  | nil => exact .pure rfl
  | cons t ts ih =>
    refine (h.exec t).bind fun o => ?_
    cases o with
    | normal => exact ih
    | _ => exact .pure rfl

theorem block (contents : Bindings Value) (outer : Chain) (ts : List Stmt) :
    Reruns f (Outcome.reline f) (m.block contents outer ts)
      (m.block (contents.map (Value.reline f)) outer (relineStmts f ts)) :=
  (Reruns.pushFrame contents outer).bind fun chain => (h.sequence ts).within chain

theorem invoke (r : Routine) (args : List Value) :
    Reruns f (Value.reline f) (m.invoke r args) (m.invoke (r.reline f) (args.map (Value.reline f))) := by
  have hblock := h.block (bindAll r.definition.params args) r.closure r.definition.body
  rw [← bindAll_reline, relineStmts_eq, ← Lambda.params_reline, ← Lambda.body_reline] at hblock
  exact hblock.bind fun o => .get fun s => congrArg (EStateM.Result.ok · (s.reline f)) (r.result_reline f o s)

theorem instantiate (c : Class) (args : List Value) :
    Reruns f (Value.reline f) (m.instantiate c args) (m.instantiate (c.reline f) (args.map (Value.reline f))) := by
  refine (Reruns.newObject c).bind fun self => ?_
  rw [Class.initializer?_reline]
  cases c.initializer? with
  | none => exact .pure rfl
  | some r => exact (bindTo_reruns r self).bind fun bound => (h.invoke bound args).bind fun _ => .pure rfl

theorem apply (callee : Value) (args : List Value) (line : Int) : Reruns f (Value.reline f)
    (m.apply callee args line) (m.apply (callee.reline f) (args.map (Value.reline f)) (f line)) := by
  have hchecked : ∀ {arity arity' : Nat} {p p' : Exec Value}, arity' = arity →
      (args.length = arity → Reruns f (Value.reline f) p p') → Reruns f (Value.reline f)
        (if args.length = arity then Exec.blaming line p else Exec.fault (.wrongCount arity args.length) line)
        (if (args.map (Value.reline f)).length = arity' then Exec.blaming (f line) p'
          else Exec.fault (.wrongCount arity' (args.map (Value.reline f)).length) (f line)) := by
    rintro arity _ p p' rfl hp
    rw [List.length_map]
    split
    · exact (hp ‹_›).blaming line
    · exact Reruns.fault _ (some line)
  cases callee with
  | native n => exact hchecked rfl (native_reruns n)
  | function i r => exact hchecked (r.arity_reline f) fun _ => h.invoke r args
  | classDef i c => exact hchecked (c.arity_reline f) fun _ => h.instantiate c args
  | _ => exact .fault _ (some line)

omit h in
theorem property (v : Value) (name : Token) :
    Reruns f (Value.reline f) (Evaluator.property v name) (Evaluator.property (v.reline f) (name.reline f)) := by
  cases v with
  | object i c =>
    refine .get fun s => ?_
    rw [Store.fields_reline, Bindings.find?_map, Token.lexeme_reline, Class.reline, Bindings.find?_map]
    cases (s.fields i).find? name.lexeme with
    | some v => rfl
    | none =>
      cases c.methods.find? name.lexeme with
      | some r =>
        exact ((bindTo_reruns r (.object i c)).bind fun _ => Reruns.freshId.map fun _ => rfl) s
      | none => rfl
  | _ => exact .fault _ (some name.line)

theorem evalRule (e : Expr) : Reruns f (Value.reline f) (m.evalRule e) (m.evalRule (e.reline f)) := by
  cases e with
  | literal v => exact .pure ((Value.lookalike_reline f).ofLiteral v)
  | ref name hops => exact h.read name hops
  | self keyword hops => exact h.read keyword hops
  | assign name hops e => exact (h.eval e).bind fun v => (h.write name hops v).map fun _ => rfl
  | group e => exact h.eval e
  | unary op e => exact (h.eval e).bind fun v => unary_reruns op v
  | binary l op r => exact (h.eval l).bind fun v => (h.eval r).bind fun w => binary_reruns op v w
  | logical l op r =>
    refine (h.eval l).bind fun v => ?_
    rw [Value.truthy_reline, Token.kind_reline]
    exact .ite .rfl (.pure rfl) (h.eval r)
  | ternary c y n line =>
    refine (h.eval c).bind fun v => ?_
    have hbad : ∀ v : Value, Reruns f (Value.reline f) (do Exec.fault (.badSelector (← Exec.text v)) line)
        (do Exec.fault (.badSelector (← Exec.text (v.reline f))) (f line)) :=
      fun v => (Reruns.text v).bind fun t => Reruns.fault (.badSelector t) (some line)
    cases v with
    | bool b =>
      cases b with
      | true => exact h.eval y
      | false => exact h.eval n
    | _ => exact hbad _
  | call e paren args =>
    exact (h.eval e).bind fun callee => (h.evalAll args).bind fun vs => h.apply callee vs paren.line
  | property o name => exact (h.eval o).bind fun v => property v name
  | setProperty o name e =>
    refine (h.eval o).bind fun object => ?_
    cases object with
    | object i c => exact (h.eval e).bind fun v => (Reruns.setField i name.lexeme v).map fun _ => rfl
    | _ => exact Reruns.fault .noFields (some name.line)
  | function d => exact Reruns.freshId.bind fun _ => .get fun _ => rfl
  | list es =>
    refine (h.evalAll es).bind fun vs => ?_
    have hlist := Reruns.newList (f := f) vs.toArray
    rw [List.map_toArray] at hlist
    exact hlist
  | ofStmt t => exact (h.exec t).map fun _ => rfl
  | stub s => exact .defect _

theorem execRule (t : Stmt) : Reruns f (Outcome.reline f) (m.execRule t) (m.execRule (t.reline f)) := by
  cases t with
  | expression e => exact (h.eval e).map fun _ => rfl
  | print e =>
    exact (h.eval e).bind fun v => (Reruns.text v).bind fun t => (Reruns.print t).map fun _ => rfl
  | varDecl name initial =>
    cases initial with
    | none => exact (Reruns.define name.lexeme .nil).map fun _ => rfl
    | some e => exact (h.eval e).bind fun v => (Reruns.define name.lexeme v).map fun _ => rfl
  | funDecl name d =>
    refine Reruns.freshId.bind fun i => .get fun s => ?_
    exact (Reruns.define name.lexeme (.function i ⟨name.lexeme, d, s.chain, false⟩)).map (fun _ => rfl) s
  | classDecl name ms =>
    refine (Reruns.define name.lexeme .nil).bind fun _ => Reruns.freshId.bind fun i => .get fun s => ?_
    have hclass := Reruns.define (f := f) name.lexeme
      (.classDef i ⟨name.lexeme, methodTable s.chain ms⟩)
    rw [Value.reline, Class.reline, ← methodTable_reline, ← relineMethods_eq] at hclass
    exact hclass.map (fun _ => rfl) s
  | block ts => exact .get fun s => h.block ⟨[]⟩ s.chain ts s
  | ifThen c y no =>
    cases no with
    | none =>
      refine (h.eval c).bind fun v => ?_
      rw [Value.truthy_reline]
      exact .ite .rfl (h.exec y) (.pure rfl)
    | some n =>
      refine (h.eval c).bind fun v => ?_
      rw [Value.truthy_reline]
      exact .ite .rfl (h.exec y) (h.exec n)
  | whileLoop c body step =>
    have htest : Reruns f id (do return (← m.eval c).truthy) (do return (← m.eval (c.reline f)).truthy) :=
      (h.eval c).map fun v => v.truthy_reline f
    cases step with
    | none => exact htest.passes (h.exec body) (.pure rfl) m.limit
    | some s => exact htest.passes (h.exec body) ((h.exec s).fmap fun _ => rfl) m.limit
  | ret keyword value =>
    cases value with
    | none => exact .pure rfl
    | some e => exact (h.eval e).map fun _ => rfl
  | breakLoop => exact .pure rfl
  | continueLoop => exact .pure rfl
  | ofExpr e => exact (h.eval e).map fun _ => rfl

end Evaluator.Relined

theorem relined_byDistance (f : Int → Int) (n : Nat) :
    Evaluator.Relined f ⟨.byDistance, n, evaluate .byDistance n, execute .byDistance n⟩ := by
  induction n with
  | zero => exact ⟨read_reruns, write_reruns, fun _ => .endless, fun _ => .endless⟩
  | succ n ih =>
    refine ⟨read_reruns, write_reruns, fun e => ?_, fun t => ?_⟩
    · simp only [evaluate]
      exact ih.evalRule e
    · simp only [execute]
      exact ih.execRule t

/-- A program with other lines, on a store with other lines, ends as the image of how it ends on the old ones. -/
theorem runProgram_reline (f : Int → Int) (fuel : Nat) (ts : List Stmt) :
    Reruns f id (runProgram .byDistance fuel ts) (runProgram .byDistance fuel (ts.map (Stmt.reline f))) := by
  induction ts with
  | nil => exact .pure rfl
  | cons t ts ih => exact ((relined_byDistance f fuel).exec t).bind fun _ => ih

end LoxLang
