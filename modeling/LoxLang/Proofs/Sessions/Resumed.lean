import LoxLang.Proofs.History.Initialized
import LoxLang.Proofs.Sessions.Outcome

namespace LoxLang

open Stopping

/-- A later store on the same chain, with no frame less. -/
structure Store.Resumes (s t : Store) : Prop where
  chain : t.chain = s.chain
  frames : s.frames.size ≤ t.frames.size

namespace Store.Resumes

variable {s t u : Store}

theorem refl (s : Store) : s.Resumes s := ⟨rfl, Nat.le_refl _⟩

theorem trans (h : s.Resumes t) (h' : t.Resumes u) : s.Resumes u :=
  ⟨h'.chain.trans h.chain, Nat.le_trans h.frames h'.frames⟩

theorem define (s : Store) (f : Nat) (name : String) (v : Value) :
    s.Resumes { s with frames := s.frames.define f name v } := ⟨rfl, by simp⟩

end Store.Resumes

namespace Exec

variable {α β : Type}

def Restores (p : Exec α) : Prop := ∀ s : Store, s.Resumes (storeAfter (p s))

namespace Restores

variable {p : Exec α}

theorem ok (h : p.Restores) {s t : Store} {a : α} (hp : p s = .ok a t) : s.Resumes t := by
  have hs := h s
  rwa [hp] at hs

theorem error (h : p.Restores) {s t : Store} {e : Stop} (hp : p s = .error e t) : s.Resumes t := by
  have hs := h s
  rwa [hp] at hs

theorem pure (a : α) : (Pure.pure a : Exec α).Restores := fun s => .refl s

theorem throw (e : Stop) : (MonadExcept.throw e : Exec α).Restores := fun s => .refl s

theorem fault (cause : Fault.Cause) (line : Option Int) : (Exec.fault cause line : Exec α).Restores := throw _

theorem bind {k : α → Exec β} (hp : p.Restores) (hk : ∀ a, (k a).Restores) : (p >>= k).Restores := by
  intro s
  cases h : p s with
  | ok a t =>
    rw [bind_ok h]
    exact (hp.ok h).trans (hk a t)
  | error e t =>
    rw [bind_error h]
    exact hp.error h

theorem get {k : Store → Exec β} (hk : ∀ s, (k s).Restores) : ((MonadState.get : Exec Store) >>= k).Restores :=
  fun s => hk s s

theorem modifyGet {f : Store → α × Store} (h : ∀ s : Store, s.Resumes (f s).2) :
    (MonadStateOf.modifyGet f : Exec α).Restores := h

theorem update {f : Store → Store} (h : ∀ s : Store, s.Resumes (f s)) : (modify f : Exec Unit).Restores := h

theorem within (chain : Chain) (hp : p.Restores) : (Exec.within chain p).Restores := by
  intro s
  cases h : p { s with chain } with
  | ok a t =>
    rw [within_ok h]
    exact ⟨rfl, (hp.ok h).frames⟩
  | error e t =>
    rw [within_error h]
    exact ⟨rfl, (hp.error h).frames⟩

theorem blaming (line : Int) (hp : p.Restores) : (Exec.blaming line p).Restores := by
  intro s
  cases h : p s with
  | ok a t =>
    rw [blaming_ok h]
    exact hp.ok h
  | error e t =>
    rw [blaming_error h]
    exact hp.error h

theorem passes {test : Exec Bool} {body : Exec Outcome} {step : Exec Unit} (htest : test.Restores)
    (hbody : body.Restores) (hstep : step.Restores) (n : Nat) : (Exec.passes test body step n).Restores := by
  induction n with
  | zero => exact throw _
  | succ n ih =>
    rw [passes_succ]
    refine htest.bind fun go => ?_
    cases go with
    | false => exact pure _
    | true =>
      refine hbody.bind fun o => ?_
      cases o with
      | broken | returned => exact pure _
      | normal | continued => exact hstep.bind fun _ => ih

section store

theorem pushFrame (contents : Bindings Value) (outer : Chain) : (Exec.pushFrame contents outer).Restores :=
  modifyGet fun s => ⟨rfl, by simp⟩

theorem defineIn (f : Nat) (name : String) (v : Value) : (Exec.defineIn f name v).Restores :=
  update fun s => .define s f name v

theorem define (name : String) (v : Value) : (Exec.define name v).Restores := get fun _ => defineIn _ name v

theorem freshId : Exec.freshId.Restores := modifyGet fun _ => ⟨rfl, Nat.le_refl _⟩

theorem newList (items : Array Value) : (Exec.newList items).Restores := modifyGet fun _ => ⟨rfl, Nat.le_refl _⟩

theorem newObject (c : Class) : (Exec.newObject c).Restores := modifyGet fun _ => ⟨rfl, Nat.le_refl _⟩

theorem setField (id : Nat) (name : String) (v : Value) : (Exec.setField id name v).Restores :=
  update fun _ => ⟨rfl, Nat.le_refl _⟩

theorem print (text : String) : (Exec.print text).Restores := update fun _ => ⟨rfl, Nat.le_refl _⟩

theorem text (v : Value) : (Exec.text v).Restores := by
  refine get fun s => ?_
  cases v.text? s.lists with
  | some t => exact pure t
  | none => exact throw _

theorem read (name : Token) (hops : Option Nat) : (Addressing.byDistance.read name hops).Restores := by
  cases hops with
  | some d =>
    refine get fun s => ?_
    cases s.frames.findAt? s.chain d name.lexeme with
    | some v => exact pure _
    | none => exact throw _
  | none =>
    refine get fun s => ?_
    cases s.frames.find? name.lexeme globals with
    | some v => exact pure v
    | none => exact fault _ _

theorem write (name : Token) (hops : Option Nat) (v : Value) : (Addressing.byDistance.write name hops v).Restores := by
  cases hops with
  | some d =>
    refine get fun s => ?_
    cases s.chain.out? d with
    | some c => exact defineIn _ _ v
    | none => exact throw _
  | none =>
    refine get fun s => ?_
    cases s.frames.holder? name.lexeme globals with
    | some f => exact defineIn _ _ v
    | none => exact fault _ _

end store

section operators

theorem of_acts {line : Option Int} {post : α → α → Prop} (h : Acts line line (Value.Itself fun _ => True) post p p) :
    p.Restores := by
  intro s
  obtain ⟨l, c, -, ⟨a, -, hp⟩ | ⟨e, -, hp⟩⟩ := h.alone (s := s) fun _ _ _ => trivial
  all_goals
    rw [hp]
    exact ⟨rfl, Nat.le_refl _⟩

theorem unary (op : Token) (v : Value) : (v.unary op).Restores :=
  of_acts (Acts.unary Value.Itself.lookalike_true rfl ⟨rfl, trivial⟩)

theorem binary (op : Token) (a b : Value) : (Value.binary op a b).Restores :=
  of_acts (Acts.binary Value.Itself.lookalike_true rfl ⟨rfl, trivial⟩ ⟨rfl, trivial⟩)

theorem native (n : Native) {args : List Value} (hcount : args.length = n.arity) : (n.apply args).Restores :=
  of_acts (Acts.native Value.Itself.lookalike_true (Value.Itself.forall₂ fun _ _ => trivial) n hcount)

end operators

theorem bindTo (r : Routine) (self : Value) : (r.bindTo self).Restores := (pushFrame _ _).bind fun _ => pure _

theorem property (object : Value) (name : Token) : (Evaluator.property object name).Restores := by
  unfold Evaluator.property
  split
  · refine get fun s => ?_
    split
    · exact pure _
    · exact (bindTo _ _).bind fun _ => freshId.bind fun _ => pure _
    · exact fault _ _
  · exact fault _ _

end Restores

end Exec

namespace Evaluator

/-- What runs below a node leaves the chain as it was. -/
structure Restores (m : Evaluator) : Prop where
  addressing : m.addressing = .byDistance
  eval : ∀ e, (m.eval e).Restores
  exec : ∀ t, (m.exec t).Restores

namespace Restores

variable {m : Evaluator} (h : m.Restores)

include h

theorem evalAll (es : List Expr) : (m.evalAll es).Restores := by
  induction es with
  | nil => exact .pure _
  | cons e es ih => exact (h.eval e).bind fun _ => ih.bind fun _ => .pure _

theorem sequence (ss : List Stmt) : (m.sequence ss).Restores := by
  induction ss with
  | nil => exact .pure _
  | cons t ts ih =>
    refine (h.exec t).bind fun o => ?_
    cases o with
    | normal => exact ih
    | _ => exact .pure _

theorem block (contents : Bindings Value) (outer : Chain) (ss : List Stmt) : (m.block contents outer ss).Restores :=
  (Exec.Restores.pushFrame contents outer).bind fun chain => (h.sequence ss).within chain

theorem invoke (r : Routine) (args : List Value) : (m.invoke r args).Restores :=
  (h.block _ _ _).bind fun _ => .get fun _ => .pure _

theorem instantiate (c : Class) (args : List Value) : (m.instantiate c args).Restores := by
  refine (Exec.Restores.newObject c).bind fun self => ?_
  cases c.initializer? with
  | none => exact .pure _
  | some r => exact (Exec.Restores.bindTo r self).bind fun bound => (h.invoke bound args).bind fun _ => .pure _

theorem apply (callee : Value) (args : List Value) (line : Int) : (m.apply callee args line).Restores := by
  have hchecked : ∀ (arity : Nat) (p : Exec Value), (args.length = arity → p.Restores) →
      (if args.length = arity then Exec.blaming line p
        else Exec.fault (.wrongCount arity args.length) line).Restores := by
    intro arity p hp
    split
    · exact (hp ‹_›).blaming line
    · exact .fault _ _
  unfold Evaluator.apply
  cases callee with
  | native n => exact hchecked _ _ (.native n)
  | function _ r => exact hchecked _ _ fun _ => h.invoke r args
  | classDef _ c => exact hchecked _ _ fun _ => h.instantiate c args
  | _ => exact .fault _ _

theorem evalRule (e : Expr) : (m.evalRule e).Restores := by
  cases e with
  | literal => exact .pure _
  | ref | self =>
    simp only [Evaluator.evalRule, h.addressing]
    exact .read _ _
  | assign =>
    simp only [Evaluator.evalRule, h.addressing]
    exact (h.eval _).bind fun v => (Exec.Restores.write _ _ v).bind fun _ => .pure _
  | group e => exact h.eval e
  | unary op e => exact (h.eval e).bind fun v => .unary op v
  | binary l op r => exact (h.eval l).bind fun a => (h.eval r).bind fun b => .binary op a b
  | logical l op r =>
    refine (h.eval l).bind fun a => ?_
    split
    · exact .pure _
    · exact h.eval r
  | ternary c y n line =>
    refine (h.eval c).bind fun v => ?_
    split
    · exact h.eval y
    · exact h.eval n
    · exact (Exec.Restores.text v).bind fun _ => .fault _ _
  | call f paren args =>
    exact (h.eval f).bind fun callee => (h.evalAll args).bind fun vs => h.apply callee vs paren.line
  | property o name => exact (h.eval o).bind fun v => .property v name
  | setProperty o name e =>
    refine (h.eval o).bind fun v => ?_
    split
    · exact (h.eval e).bind fun v => (Exec.Restores.setField _ _ v).bind fun _ => .pure _
    · exact .fault _ _
  | function f => exact Exec.Restores.freshId.bind fun _ => .get fun _ => .pure _
  | list es => exact (h.evalAll es).bind fun vs => .newList _
  | ofStmt t => exact (h.exec t).bind fun _ => .pure _
  | stub => exact .throw _

theorem execRule (t : Stmt) : (m.execRule t).Restores := by
  cases t with
  | expression e | ofExpr e => exact (h.eval e).bind fun _ => .pure _
  | print e =>
    exact (h.eval e).bind fun v => (Exec.Restores.text v).bind fun text => (Exec.Restores.print text).bind fun _ => .pure _
  | varDecl name initial =>
    cases initial with
    | none => exact (Exec.Restores.define _ _).bind fun _ => .pure _
    | some e => exact (h.eval e).bind fun v => (Exec.Restores.define _ v).bind fun _ => .pure _
  | funDecl => exact Exec.Restores.freshId.bind fun _ => .get fun _ => (Exec.Restores.define _ _).bind fun _ => .pure _
  | classDecl =>
    exact (Exec.Restores.define _ _).bind fun _ => Exec.Restores.freshId.bind fun _ => .get fun _ =>
      (Exec.Restores.define _ _).bind fun _ => .pure _
  | block ss => exact .get fun s => h.block ⟨[]⟩ s.chain ss
  | ifThen c y no =>
    refine (h.eval c).bind fun v => ?_
    split
    · exact h.exec y
    · cases no with
      | none => exact .pure _
      | some n => exact h.exec n
  | whileLoop c body step =>
    have htest : (do return (← m.eval c).truthy : Exec Bool).Restores := (h.eval c).bind fun _ => .pure _
    cases step with
    | none => exact htest.passes (h.exec body) (.pure ()) _
    | some s => exact htest.passes (h.exec body) ((h.exec s).bind fun _ => .pure ()) _
  | ret keyword value =>
    cases value with
    | none => exact .pure _
    | some e => exact (h.eval e).bind fun _ => .pure _
  | breakLoop | continueLoop => exact .pure _

end Restores

def atDepth (n : Nat) : Evaluator := ⟨.byDistance, n, evaluate .byDistance n, execute .byDistance n⟩

theorem atDepth_restores (n : Nat) : (atDepth n).Restores := by
  induction n with
  | zero =>
    refine ⟨rfl, fun e => ?_, fun t => ?_⟩
    · simp only [atDepth, evaluate]
      exact .throw _
    · simp only [atDepth, execute]
      exact .throw _
  | succ n ih =>
    refine ⟨rfl, fun e => ?_, fun t => ?_⟩
    · simp only [atDepth, evaluate]
      exact ih.evalRule e
    · simp only [atDepth, execute]
      exact ih.execRule t

end Evaluator

theorem runProgram_restores (n : Nat) (ss : List Stmt) : (runProgram .byDistance n ss).Restores := by
  induction ss with
  | nil => exact .pure _
  | cons t ts ih => exact ((Evaluator.atDepth_restores n).exec t).bind fun _ => ih

/-- A declaration that ends has bound its name, last of all, in the innermost frame of the chain. -/
theorem execute_declares {n : Nat} {d : Stmt} {s t : Store} {o : Outcome} {name : String} (hname : name ∈ d.declares)
    (h : execute .byDistance n d s = .ok o t) :
    ∃ u v, s.Resumes u ∧ t = { u with frames := u.frames.define s.chain.frame name v } := by
  cases n with
  | zero => cases h
  | succ n =>
    change (Evaluator.atDepth n).execRule d s = .ok o t at h
    cases d with
    | varDecl token initial =>
      obtain rfl := List.mem_singleton.1 hname
      cases initial with
      | none =>
        cases h
        exact ⟨s, .nil, .refl s, rfl⟩
      | some e =>
        change ((Evaluator.atDepth n).eval e >>= fun v => _) s = _ at h
        cases he : (Evaluator.atDepth n).eval e s with
        | error e u =>
          rw [bind_error he] at h
          cases h
        | ok v u =>
          rw [bind_ok he] at h
          cases h
          have hu := ((Evaluator.atDepth_restores n).eval e).ok he
          exact ⟨u, v, hu, hu.chain ▸ rfl⟩
    | funDecl token f =>
      obtain rfl := List.mem_singleton.1 hname
      cases h
      exact ⟨{ s with fresh := s.fresh + 1 }, _, ⟨rfl, Nat.le_refl _⟩, rfl⟩
    | classDecl token methods =>
      obtain rfl := List.mem_singleton.1 hname
      cases h
      exact ⟨{ s with frames := s.frames.define s.chain.frame token.lexeme .nil, fresh := s.fresh + 1 }, _,
        ⟨rfl, by simp⟩, rfl⟩
    | _ => cases hname

theorem Execution.resumes (x : Execution) : x.store.Resumes x.storeAfter := by
  have hx : x.storeAfter = Exec.storeAfter x.result := by
    unfold storeAfter
    cases x.result <;> rfl
  rw [hx]
  exact runProgram_restores x.fuel x.statements x.store

/-- Each program of a session starts on a store that goes on from the first one, and so does what comes after. -/
theorem Session.resumes (commands : List Command) (s : Session) :
    (∀ x ∈ executions commands s, s.store.Resumes x.store) ∧ s.store.Resumes (after commands s).store :=
  stores_keep (fun hframes _ _ hchain h => ⟨hchain.trans h.chain, hframes ▸ h.frames⟩) commands (.refl _)
    fun x _ hx => hx.trans x.resumes

/-- However a statement, an expression or a block ends, names are looked up afterwards where they were before. So
whatever came before in a session, a program is run among the globals, and its declarations make globals. -/
theorem chain_restored (clock : Clock) (commands : List Command) :
    (∀ n e s, Exec.chainAfter (evaluate .byDistance n e s) = s.chain) ∧
    (∀ n t s, Exec.chainAfter (execute .byDistance n t s) = s.chain) ∧
    (∀ n ss chain s, Exec.chainAfter (Exec.within chain ((Evaluator.atDepth n).sequence ss) s) = s.chain) ∧
    (∀ n contents outer ss s, Exec.chainAfter ((Evaluator.atDepth n).block contents outer ss s) = s.chain) ∧
    (Session.after commands { store := { clock := clock } }).store.chain = globals ∧
    ∀ x ∈ Session.executions commands { store := { clock := clock } }, ∀ before d later u,
      x.statements = before ++ d :: later → runProgram .byDistance x.fuel before x.store = .ok () u →
        u.chain = globals ∧ ∀ o t, execute .byDistance x.fuel d u = .ok o t → ∀ name ∈ d.declares,
          ∃ (w : Store) (v : Value), t = { w with frames := w.frames.define globals.frame name v } ∧
            (t.frames.frame globals.frame).find? name = some v := by
  have hsame : ∀ {α : Type} {p : Exec α}, p.Restores → ∀ s, Exec.chainAfter (p s) = s.chain := fun hp s =>
    (Exec.chainAfter_eq _).trans (hp s).chain
  refine ⟨fun n e => hsame ((Evaluator.atDepth_restores n).eval e),
    fun n t => hsame ((Evaluator.atDepth_restores n).exec t), fun n ss chain s => Exec.chainAfter_within _ _ s,
    fun n contents outer ss => hsame ((Evaluator.atDepth_restores n).block contents outer ss),
    (Session.resumes commands _).2.chain, fun x hx before d later u _ hu => ?_⟩
  have htop := ((Session.resumes commands _).1 x hx).trans ((runProgram_restores x.fuel before).ok hu)
  refine ⟨htop.chain, fun o t ht name hname => ?_⟩
  obtain ⟨w, v, hw, rfl⟩ := execute_declares hname ht
  have hroom : globals.frame < w.frames.size := Nat.lt_of_lt_of_le Nat.zero_lt_one (htop.trans hw).frames
  rw [htop.chain]
  refine ⟨w, v, rfl, ?_⟩
  change ((w.frames.define globals.frame name v).frame globals.frame).find? name = some v
  rw [Frames.frame_define, if_pos ⟨rfl, hroom⟩, Bindings.find?_put, if_pos rfl]

end LoxLang
