import LoxLang.Proofs.Reading.Completeness
import LoxLang.Proofs.Tree.Resolution

namespace LoxLang.Phrase

variable {ts us : List Token} {e : Expr}

theorem Conjunction.expression (h : Conjunction ts e) : Expression ts e := .value (.chain (.first h))

theorem Conditional.expression (h : Conditional ts e) : Expression ts e :=
  Conjunction.expression (.chain (.first h))

theorem Equality.conditional (h : Equality ts e) : Conditional ts e := by
  obtain ⟨t, us, rfl, -⟩ := h.starts
  obtain ⟨init, last, hlast⟩ := (List.eq_nil_or_concat (t :: us)).resolve_left (List.cons_ne_nil t us)
  rw [List.concat_eq_append] at hlast
  rw [hlast] at h ⊢
  exact .chain (.first h)

theorem Comparison.expression (h : Comparison ts e) : Expression ts e :=
  (Equality.conditional (.chain (.first h))).expression

theorem Term.expression (h : Term ts e) : Expression ts e := Comparison.expression (.chain (.first h))

theorem Factor.expression (h : Factor ts e) : Expression ts e := Term.expression (.chain (.first h))

theorem Unary.expression (h : Unary ts e) : Expression ts e := Factor.expression (.chain (.first h))

theorem Call.expression (h : Call ts e) : Expression ts e := Unary.expression (.operand h)

theorem Primary.equality (h : Primary ts e) : Equality ts e :=
  .chain (.first (.chain (.first (.chain (.first (.chain (.first (.operand (.primary h)))))))))

/-- The tokens that a node is read from. In the loop that a `for` stands for, a test without tokens is always true,
and the step has no semicolon. -/
inductive Part : List Token → Node → Prop
  | expr {ts : List Token} {e : Expr} (h : Expression ts e) : Part ts (.expr e)
  | lambda {ts : List Token} {f : Lambda} (h : Function ts f) : Part ts (.lambda f)
  | stmt {loop : Bool} {ts : List Token} {t : Stmt} (h : Declaration loop ts t) : Part ts (.stmt t)
  | always : Part [] (.expr (.literal (.bool true)))
  | step {ts : List Token} {e : Expr} (h : Expression ts e) : Part ts (.stmt (.expression e))
  | loop {dangling : Bool} {cs ss bs : List Token} {semicolon right : Token} {condition step : Option Expr}
      {body : Stmt} (hcondition : Optional Expression cs condition) (hstep : Optional Expression ss step)
      (hbody : Statement true dangling bs body) :
    Part (cs ++ semicolon :: ss ++ right :: bs) (.stmt (forLoop none condition step body))

def Among (ts : List Token) (j : Node) : Prop := ∃ us, us <:+: ts ∧ Part us j

theorem Part.among {j : Node} (h : Part us j) (before after : List Token) (hts : before ++ us ++ after = ts) :
    Among ts j := ⟨us, ⟨before, after, hts⟩, h⟩

theorem Among.mono {j : Node} (h : Among us j) (hus : us <:+: ts) : Among ts j :=
  let ⟨vs, hvs, hpart⟩ := h
  ⟨vs, hvs.trans hus, hpart⟩

theorem Among.both {j k : Node} (hj : Among ts j) (hk : Among ts k) : ∀ l ∈ [j, k], Among ts l :=
  List.forall_mem_cons.2 ⟨hj, List.forall_mem_singleton.2 hk⟩

/-- The nodes right below a node are read from tokens in these. -/
def Parted (ts : List Token) (j : Node) : Prop := ∀ k ∈ j.parts, Among ts k

theorem Separated.parts {α : Type} {item : List Token → α → Prop} {as : List α} (h : Separated item ts as) :
    ∀ a ∈ as, ∃ us, us <:+: ts ∧ item us a := by
  induction h with
  | one ha => exact List.forall_mem_singleton.2 ⟨_, List.infix_refl _, ha⟩
  | more ha _ _ ih =>
    refine List.forall_mem_cons.2 ⟨⟨_, List.infix_append [] _ _, ha⟩, fun a hmem => ?_⟩
    obtain ⟨us, hus, hitem⟩ := ih a hmem
    exact ⟨us, hus.trans ((List.suffix_cons _ _).trans (List.suffix_append _ _)).isInfix, hitem⟩

theorem Listed.parts {limit : Nat} {es : List Expr} (h : Listed Expression limit ts es) :
    ∀ k ∈ es.map Node.expr, Among ts k := by
  intro k hk
  obtain ⟨d, hd, rfl⟩ := List.mem_map.1 hk
  cases h with
  | none => cases hd
  | some hes =>
    obtain ⟨us, hus, hexpr⟩ := hes.parts d hd
    exact ⟨us, hus, .expr hexpr⟩

theorem LeftChain.parted {operand : List Token → Expr → Prop} {ops : List Token.Kind}
    {join : Expr → Token → Expr → Expr} (h : LeftChain operand ops join ts e)
    (hjoin : ∀ l op r, (Node.expr (join l op r)).parts = [.expr l, .expr r])
    (hchain : ∀ {us a}, LeftChain operand ops join us a → Expression us a)
    (hparted : ∀ {us a}, operand us a → Parted us (.expr a)) : Parted ts (.expr e) := by
  cases h with
  | first h => exact hparted h
  | @more ls rs op l r hl hop hr =>
    unfold Parted
    rw [hjoin]
    have hleft := (Part.expr (hchain hl)).among [] (op :: rs) rfl
    exact hleft.both ((Part.expr (hchain (.first hr))).among (ls ++ [op]) [] (by simp))

theorem Primary.parted (h : Primary ts e) : Parted ts (.expr e) := by
  cases h with
  | no | yes | nil | literal | self | ref => exact List.forall_mem_nil _
  | @function word us f _ hf => exact List.forall_mem_singleton.2 ((Part.lambda hf).among [word] [] (by simp))
  | @group left right us d _ hd => exact List.forall_mem_singleton.2 ((Part.expr hd).among [left] [right] (by simp))
  | @list left right us es _ hes =>
    intro k hk
    rw [Node.parts, Node.children, List.map_map] at hk
    exact (hes.parts k hk).mono ⟨[left], [right], by simp⟩

theorem Call.parted (h : Call ts e) : Parted ts (.expr e) := by
  cases h with
  | primary h => exact h.parted
  | @property os dot name o ho =>
    exact List.forall_mem_singleton.2 ((Part.expr ho.expression).among [] [dot, name] (by simp))
  | @call fs as left right f arguments hf _ has =>
    refine List.forall_mem_cons.2 ⟨(Part.expr hf.expression).among [] (left :: as ++ [right]) (by simp), fun k hk => ?_⟩
    rw [List.map_map] at hk
    exact (has.parts k hk).mono ⟨fs ++ [left], [right], by simp⟩

theorem Unary.parted (h : Unary ts e) : Parted ts (.expr e) := by
  cases h with
  | operand h => exact h.parted
  | @operator op us d _ hd =>
    exact List.forall_mem_singleton.2 ((Part.expr hd.expression).among [op] [] (by simp))

theorem Equality.parted (h : Equality ts e) : Parted ts (.expr e) := by
  have hjoin : ∀ l op r, (Node.expr (.binary l op r)).parts = [.expr l, .expr r] := fun _ _ _ => rfl
  have factor : ∀ {us a}, Factor us a → Parted us (.expr a) := fun ⟨h⟩ =>
    h.parted hjoin (fun h => Factor.expression (.chain h)) Unary.parted
  have term : ∀ {us a}, Term us a → Parted us (.expr a) := fun ⟨h⟩ =>
    h.parted hjoin (fun h => Term.expression (.chain h)) factor
  have comparison : ∀ {us a}, Comparison us a → Parted us (.expr a) := fun ⟨h⟩ =>
    h.parted hjoin (fun h => Comparison.expression (.chain h)) term
  obtain ⟨h⟩ := h
  exact h.parted hjoin (fun h => (Equality.conditional (.chain h)).expression) comparison

theorem Conditional.parted (h : Conditional ts e) : Parted ts (.expr e) := by
  obtain ⟨h⟩ := h
  cases h with
  | first he => exact he.parted
  | @more line ss ys ns question colon s y n hs _ hy _ hn =>
    have hselector : Expression ss s := Conditional.expression (.chain hs)
    refine List.forall_mem_cons.2 ⟨?_, Among.both ?_ ?_⟩
    · exact (Part.expr hselector).among [] (question :: ys ++ colon :: ns) (by simp)
    · exact (Part.expr hy.expression).among (ss ++ [question]) (colon :: ns) (by simp)
    · exact (Part.expr hn.conditional.expression).among (ss ++ question :: ys ++ [colon]) [] (by simp)

theorem Expression.parted (h : Expression ts e) : Parted ts (.expr e) := by
  have hjoin : ∀ l op r, (Node.expr (.logical l op r)).parts = [.expr l, .expr r] := fun _ _ _ => rfl
  have conjunction : ∀ {us a}, Conjunction us a → Parted us (.expr a) := fun ⟨h⟩ =>
    h.parted hjoin (fun h => Conjunction.expression (.chain h)) Conditional.parted
  cases h with
  | @assign name equal vs v _ _ hv =>
    exact List.forall_mem_singleton.2 ((Part.expr hv).among [name, equal] [] (by simp))
  | @set os vs dot name equal o v ho _ _ _ hv =>
    have hobject := (Part.expr ho.expression).among [] (dot :: name :: equal :: vs) rfl
    exact hobject.both ((Part.expr hv).among (os ++ [dot, name, equal]) [] (by simp))
  | value h =>
    obtain ⟨h⟩ := h
    exact h.parted hjoin (fun h => .value (.chain h)) conjunction

theorem Declarations.parts {loop : Bool} {ss : List Stmt} (h : Declarations loop ts ss) :
    ∀ k ∈ ss.map Node.stmt, Among ts k := by
  induction ss generalizing ts with
  | nil => exact List.forall_mem_nil _
  | cons t rest ih =>
    cases h with
    | @more _ us vs _ _ ht hrest =>
      exact List.forall_mem_cons.2 ⟨(Part.stmt ht).among [] vs rfl,
        fun k hk => (ih hrest k hk).mono (List.suffix_append us vs).isInfix⟩

theorem Function.parted {f : Lambda} (h : Function ts f) : Parted ts (.lambda f) := by
  intro k hk
  cases h with
  | @mk left right opening closing ps bs params body _ _ _ _ hbody =>
    rw [Node.parts, Node.children, Context.sequence_snd] at hk
    exact (hbody.parts k hk).mono ⟨left :: ps ++ [right, opening], [closing], by simp⟩

theorem Methods.parts {ms : List Method} (h : Methods ts ms) :
    ∀ k ∈ ms.map fun m => Node.lambda m.definition, Among ts k := by
  induction ms generalizing ts with
  | nil => exact List.forall_mem_nil _
  | cons m rest ih =>
    cases h with
    | @more name us vs f _ _ hf hms =>
      exact List.forall_mem_cons.2 ⟨(Part.lambda hf).among [name] vs (by simp),
        fun k hk => (ih hms k hk).mono ⟨name :: us, [], by simp⟩⟩

theorem Variable.parted {t : Stmt} (h : Variable ts t) : Parted ts (.stmt t) := by
  cases h with
  | plain => exact List.forall_mem_nil _
  | @initial word name equal semicolon es e _ _ _ he =>
    exact List.forall_mem_singleton.2 ((Part.expr he).among [word, name, equal] [semicolon] (by simp))

theorem parted_loop {dangling : Bool} {cs ss bs : List Token} {semicolon right : Token} {condition step : Option Expr}
    {body : Stmt} (hcondition : Optional Expression cs condition) (hstep : Optional Expression ss step)
    (hbody : Statement true dangling bs body) :
    Parted (cs ++ semicolon :: ss ++ right :: bs) (.stmt (forLoop none condition step body)) := by
  have hc : Among (cs ++ semicolon :: ss ++ right :: bs) (.expr (condition.getD (.literal (.bool true)))) := by
    cases hcondition with
    | none => exact Part.always.among [] _ rfl
    | some he => exact (Part.expr he).among [] (semicolon :: ss ++ right :: bs) (by simp)
  have hb : Among (cs ++ semicolon :: ss ++ right :: bs) (.stmt body) :=
    (Part.stmt (.statement hbody)).among (cs ++ semicolon :: ss ++ [right]) [] (by simp)
  cases hstep with
  | none => exact hc.both hb
  | some he =>
    exact List.forall_mem_cons.2 ⟨hc, hb.both ((Part.step he).among (cs ++ [semicolon]) (right :: bs) (by simp))⟩

theorem Clause.part {t : Stmt} (h : Clause ts (some t)) : Part ts (.stmt t) := by
  cases h with
  | varDecl h => exact @Part.stmt false _ _ (.varDecl h)
  | expression he hsemicolon => exact @Part.stmt false _ _ (.statement (.expression he hsemicolon))

theorem Statement.parted {loop dangling : Bool} {t : Stmt} (h : Statement loop dangling ts t) :
    Parted ts (.stmt t) := by
  cases h with
  | breakLoop | continueLoop => exact List.forall_mem_nil _
  | @print _ word semicolon es e _ he =>
    exact List.forall_mem_singleton.2 ((Part.expr he).among [word] [semicolon] (by simp))
  | @expression _ es semicolon e he =>
    exact List.forall_mem_singleton.2 ((Part.expr he).among [] [semicolon] (by simp))
  | @ret _ word semicolon es value _ hvalue =>
    cases hvalue with
    | none => exact List.forall_mem_nil _
    | some he => exact List.forall_mem_singleton.2 ((Part.expr he).among [word] [semicolon] (by simp))
  | @block _ opening closing bs body _ hbody =>
    intro k hk
    rw [Node.parts, Node.children, Context.sequence_snd] at hk
    exact (hbody.parts k hk).mono ⟨[opening], [closing], by simp⟩
  | @ifThen _ _ word left right cs ys c y _ _ hc _ hy =>
    have htest := (Part.expr hc).among [word, left] (right :: ys) rfl
    exact htest.both ((Part.stmt (.statement hy)).among (word :: left :: cs ++ [right]) [] (by simp))
  | @ifElse _ _ word left right other cs ys ns c y n _ _ hc _ hy _ hn =>
    refine List.forall_mem_cons.2 ⟨?_, Among.both ?_ ?_⟩
    · exact (Part.expr hc).among [word, left] (right :: ys ++ other :: ns) (by simp)
    · exact (Part.stmt (.statement hy)).among (word :: left :: cs ++ [right]) (other :: ns) (by simp)
    · exact (Part.stmt (.statement hn)).among (word :: left :: cs ++ right :: ys ++ [other]) [] (by simp)
  | @whileLoop _ _ word left right cs bs c b _ _ hc _ hb =>
    have htest := (Part.expr hc).among [word, left] (right :: bs) rfl
    exact htest.both ((Part.stmt (.statement hb)).among (word :: left :: cs ++ [right]) [] (by simp))
  | @forLoop _ _ word left semicolon right is cs ss bs initial condition step body _ _ hinitial hcondition _ hstep _
      hbody =>
    have hloop : cs ++ semicolon :: ss ++ right :: bs <:+: word :: left :: is ++ cs ++ semicolon :: ss ++ right :: bs :=
      ⟨word :: left :: is, [], by simp⟩
    cases initial with
    | none => exact fun k hk => (parted_loop hcondition hstep hbody k hk).mono hloop
    | some t =>
      refine Among.both ?_ ⟨_, hloop, .loop hcondition hstep hbody⟩
      exact hinitial.part.among [word, left] (cs ++ semicolon :: ss ++ right :: bs) (by simp)

theorem Declaration.parted {loop : Bool} {t : Stmt} (h : Declaration loop ts t) : Parted ts (.stmt t) := by
  cases h with
  | varDecl h => exact h.parted
  | statement h => exact h.parted
  | @funDecl _ word name us f _ _ hf =>
    exact List.forall_mem_singleton.2 ((Part.lambda hf).among [word, name] [] (by simp))
  | @classDecl _ word name opening closing us ms _ _ _ hms =>
    intro k hk
    rw [Node.parts, Node.children, List.map_map] at hk
    exact (hms.parts k hk).mono ⟨[word, name, opening], [closing], by simp⟩

theorem Part.parted {j : Node} (h : Part ts j) : Parted ts j := by
  cases h with
  | expr h => exact h.parted
  | lambda h => exact h.parted
  | stmt h => exact h.parted
  | always => exact List.forall_mem_nil _
  | step h => exact List.forall_mem_singleton.2 ((Part.expr h).among [] [] (by simp))
  | loop hcondition hstep hbody => exact parted_loop hcondition hstep hbody

/-- Every node of a program is read from tokens that stand side by side in its text. -/
theorem Program.among {program : List Stmt} (h : Program ts program) {Δ : Context} {j : Node}
    (hj : Occurs program Δ j) : Among ts j := by
  refine Occurs.induction (P := fun _ j => Among ts j) (fun Δ j hj => ?_) (fun Δ j Δ' k _ ih hk => ?_) hj
  · have hmem : j ∈ (Context.sequence {} program).map Prod.snd := List.mem_map_of_mem hj
    rw [Context.sequence_snd] at hmem
    exact h.parts j hmem
  · obtain ⟨us, hus, hpart⟩ := ih
    have hmem : k ∈ (j.children Δ).map Prod.snd := List.mem_map_of_mem hk
    rw [Node.children_snd] at hmem
    exact (hpart.parted k hmem).mono hus

end LoxLang.Phrase
