import LoxLang.Proofs.Number.Literals
import LoxLang.Proofs.Reading.TreeLaw
import LoxLang.Proofs.Sessions.Outcome
import LoxLang.Proofs.Written.Shows

namespace LoxLang

open Form

section essence

theorem Literal.written_essence (v : Literal) : v.essence.written = v.written := by
  unfold Literal.essence
  split
  next x =>
    split
    next h => rw [h]; exact Number.treeText_infinity.symm
    next => rfl
  next => rfl

theorem paramList_unplaced (params : List Token) : paramList (params.map Token.unplaced) = paramList params := by
  rw [paramList, paramList, List.map_map]
  rfl

mutual

theorem Expr.written_essence : (e : Expr) → e.essence.written = e.written
  | .literal v => by rw [Expr.essence, v.written_essence, Expr.written]
  | .ref _ _ | .self _ _ | .stub _ => rfl
  | .assign _ _ e => by rw [Expr.essence, Expr.written, Expr.written, e.written_essence]; rfl
  | .group e => by rw [Expr.essence, Expr.written, Expr.written, e.written_essence]
  | .unary _ e => by rw [Expr.essence, Expr.written, Expr.written, e.written_essence]; rfl
  | .binary l _ r | .logical l _ r => by
    rw [Expr.essence, Expr.written, Expr.written, l.written_essence, r.written_essence]; rfl
  | .ternary c y n _ => by
    rw [Expr.essence, Expr.written, Expr.written, c.written_essence, y.written_essence, n.written_essence]
  | .call f _ args => by
    rw [Expr.essence, Expr.written, Expr.written, f.written_essence, writtenExprs_essence args]
  | .property o _ => by rw [Expr.essence, Expr.written, Expr.written, o.written_essence]; rfl
  | .setProperty o _ v => by
    rw [Expr.essence, Expr.written, Expr.written, o.written_essence, v.written_essence]; rfl
  | .function f => by rw [Expr.essence, Expr.written, Expr.written, f.written_essence]
  | .list es => by rw [Expr.essence, Expr.written, Expr.written, writtenExprs_essence es]
  | .ofStmt t => by rw [Expr.essence, Expr.written, Expr.written, t.written_essence]

theorem writtenExprs_essence : (es : List Expr) → writtenExprs (essenceOfExprs es) = writtenExprs es
  | [] => rfl
  | e :: es => by
    rw [essenceOfExprs, writtenExprs, writtenExprs, e.written_essence, writtenExprs_essence es]

theorem Lambda.written_essence (f : Lambda) (head : String) : f.essence.written head = f.written head :=
  match f with
  | .mk params body => by
    rw [Lambda.essence, Lambda.written, Lambda.written, paramList_unplaced, writtenStmts_essence body]

theorem Stmt.written_essence : (t : Stmt) → t.essence.written = t.written
  | .expression e | .print e | .ofExpr e => by rw [Stmt.essence, Stmt.written, Stmt.written, e.written_essence]
  | .varDecl _ none | .ret _ none | .breakLoop _ | .continueLoop _ => rfl
  | .varDecl _ (some e) => by rw [Stmt.essence, Stmt.written, Stmt.written, e.written_essence]; rfl
  | .ret _ (some e) => by rw [Stmt.essence, Stmt.written, Stmt.written, e.written_essence]
  | .funDecl _ f => by rw [Stmt.essence, Stmt.written, Stmt.written, f.written_essence]; rfl
  | .classDecl _ ms => by rw [Stmt.essence, Stmt.written, Stmt.written, writtenMethods_essence ms]; rfl
  | .block ss => by rw [Stmt.essence, Stmt.written, Stmt.written, writtenStmts_essence ss]
  | .ifThen c y none => by
    rw [Stmt.essence, Stmt.written, Stmt.written, c.written_essence, y.written_essence]
  | .ifThen c y (some n) => by
    rw [Stmt.essence, Stmt.written, Stmt.written, c.written_essence, y.written_essence, n.written_essence]
  | .whileLoop c b none => by
    rw [Stmt.essence, Stmt.written, Stmt.written, c.written_essence, b.written_essence]
  | .whileLoop c b (some s) => by
    rw [Stmt.essence, Stmt.written, Stmt.written, c.written_essence, b.written_essence, s.written_essence]

theorem writtenStmts_essence : (ts : List Stmt) → writtenStmts (essenceOfStmts ts) = writtenStmts ts
  | [] => rfl
  | t :: ts => by
    rw [essenceOfStmts, writtenStmts, writtenStmts, t.written_essence, writtenStmts_essence ts]

theorem writtenMethods_essence : (ms : List Method) → writtenMethods (essenceOfMethods ms) = writtenMethods ms
  | [] => rfl
  | .mk _ f :: ms => by
    rw [essenceOfMethods, writtenMethods, writtenMethods, f.written_essence, writtenMethods_essence ms]; rfl

end

end essence

section leaves

variable {number : List Char → Float}

/-- What a text can hold as a number is printed as a numeral, or as a name if it is infinite. -/
theorem Expr.Shown.numeral (hnumber : ∀ x, Number.Unsigned x → number (Number.treeText x).toList = x) {x : Float}
    (hx : Number.Unsigned x) : (Expr.literal (.number x)).Shown number := by
  by_cases hinfinity : x = Number.infinity
  · subst hinfinity
    refine ⟨.atom "inf".toList, ⟨.of_all (by decide), ?_⟩, ?_⟩
    · rw [Expr.written, Literal.written, Number.treeText_infinity]
      rfl
    · rw [Expr.essence, Literal.essence, if_pos rfl]
      rfl
  obtain ⟨q, hq, -⟩ := hx.numeral hinfinity
  obtain ⟨c, cs, htext, hdigit⟩ := hq.head
  have hchars : ∀ d ∈ (Number.treeText x).toList, d ∉ '(' :: '\"' :: delimiters := by
    intro d hd hdelimiter
    have hd := hq.chars d hd
    simp only [delimiters, List.mem_cons, List.not_mem_nil, or_false] at hdelimiter
    rcases hdelimiter with rfl | rfl | rfl | rfl | rfl <;> simp at hd
  refine ⟨.atom (Number.treeText x).toList, ⟨.word (by simp [htext]) hchars, by rw [Expr.written]; rfl⟩, ?_⟩
  rw [node?, Expr.essence, Literal.essence, if_neg hinfinity, htext, leaf_digit number hdigit, ← htext, hnumber x hx]

theorem Token.Lexed.literal_shown (hnumber : ∀ x, Number.Unsigned x → number (Number.treeText x).toList = x)
    {t : Token} (h : t.Lexed) (hkind : t.kind = .number ∨ t.kind = .string) :
    (Expr.literal (t.literal.getD .nil)).Shown number := by
  have hlexeme := h (by rcases hkind with hkind | hkind <;> simp [hkind])
  generalize t.kind = kind, t.lexeme.toList = text, t.literal = literal at hlexeme hkind
  cases hlexeme with
  | sign h =>
    have hsigns : ∀ entry ∈ Token.signs, ¬(entry.2 = .number ∨ entry.2 = .string) := by decide
    exact absurd hkind (hsigns _ h)
  | keyword _ h =>
    have hkeywords : ∀ entry ∈ Token.keywords, ¬(entry.2 = .number ∨ entry.2 = .string) := by decide
    exact absurd hkind (hkeywords _ h)
  | identifier => simp at hkind
  | string hquote => exact .text (by simpa using hquote)
  | whole | decimal => exact .numeral hnumber (Number.read_unsigned _)

end leaves

section law

variable (number : List Char → Float)

def Expr.NamedTarget : Expr → Prop
  | .ref name _ => name.Named
  | .property o name => name.Named ∧ o.Shown number
  | _ => True

/-- What the grammar's rules keep of an expression. -/
structure Expr.Printed (e : Expr) : Prop where
  shown : e.Shown number
  target : e.NamedTarget number

variable {number : List Char → Float}

def shownLaw (hnumber : ∀ x, Number.Unsigned x → number (Number.treeText x).toList = x) {ts : List Token}
    (hlexed : ∀ t ∈ ts, t.Lexed) : TreeLaw ts where
  expr := Expr.Printed number
  lambda := Lambda.Shown number
  stmt _ := Stmt.Shown number
  plain _ := Stmt.Shown number
  constant := by
    rintro v (rfl | ⟨b, rfl⟩)
    · exact ⟨.nil, trivial⟩
    · exact ⟨.bool b, trivial⟩
  literal ht hkind := ⟨(hlexed _ ht).literal_shown hnumber hkind, trivial⟩
  ref ht hkind := ⟨.ref ((hlexed _ ht).named hkind), (hlexed _ ht).named hkind⟩
  self ht hkind := ⟨.self (hlexed _ ht) hkind, trivial⟩
  assign hname hv := ⟨.assign hname.target hv.shown, trivial⟩
  group he := ⟨.group he.shown, trivial⟩
  unary ht hkind he := ⟨.unary (hlexed _ ht) hkind he.shown, trivial⟩
  binary ht hkind hl hr := ⟨.binary (hlexed _ ht) hkind hl.shown hr.shown, trivial⟩
  logical ht hkind hl hr := ⟨.logical (hlexed _ ht) hkind hl.shown hr.shown, trivial⟩
  ternary _ hc hy hn := ⟨.ternary _ hc.shown hy.shown hn.shown, trivial⟩
  call ht hkind he hes := ⟨.call (hlexed _ ht) hkind he.shown fun d hd => (hes d hd).shown, trivial⟩
  property ht hkind ho := ⟨.property ((hlexed _ ht).named hkind) ho.shown, (hlexed _ ht).named hkind, ho.shown⟩
  setProperty ho hv := ⟨.setProperty ho.target.1 ho.target.2 hv.shown, trivial⟩
  function hf := ⟨.function hf, trivial⟩
  list hes := ⟨.list fun d hd => (hes d hd).shown, trivial⟩
  definition hparams hbody := ⟨fun p hp => (hlexed p (hparams p hp).1).named (hparams p hp).2, hbody⟩
  of_plain := id
  expression he := .expression he.shown
  print he := .print he.shown
  ret ht hkind h := .ret (hlexed _ ht) hkind fun e he => (h e he).shown
  block h := .block h
  ifThen hc ht hn := .ifThen hc.shown ht hn
  whileLoop hc hb hs := by
    refine .whileLoop hc.shown hb fun u hu => ?_
    obtain ⟨e, he, rfl⟩ := Option.map_eq_some_iff.1 hu
    exact .expression (hs e he).shown
  breakLoop ht := .breakLoop (hlexed _ ht)
  continueLoop ht := .continueLoop (hlexed _ ht)
  varDecl ht hkind h := .varDecl ((hlexed _ ht).named hkind) fun e he => (h e he).shown
  funDecl ht hkind hf := .funDecl ((hlexed _ ht).named hkind) hf
  classDecl ht hkind h := .classDecl ((hlexed _ ht).named hkind) fun m hm =>
    .funDecl ((hlexed _ (h m hm).1.1).named (h m hm).1.2) (h m hm).2

end law

theorem exists_forms {number : List Char → Float} {ss : List Stmt} (h : ∀ t ∈ ss, t.Shown number) :
    ∃ fs, (∀ f ∈ fs, f.Sound) ∧ (writtenProgram ss).toList = renderAll '\n' fs ∧
      nodes? number fs = (ss.map Stmt.essence).map fun t => some (.stmt t) := by
  obtain ⟨fs, hspells, hreads⟩ := Parts.of_all h
  refine ⟨fs, Spells.sounds hspells, ?_, by rw [hreads, List.map_map]; rfl⟩
  rw [writtenProgram, writtenStmts_eq]
  generalize ss.map Stmt.written = texts at hspells
  cases hspells with
  | nil => rfl
  | cons hf hfs =>
    rw [toList_intercalate, renderAll, hf.render, Spells.renderAfter hfs]
    rfl

/-- Two program texts are read as programs that are printed alike if and only if the programs are the same but for their
lines, and but for mentions of `inf` where a number is infinite. -/
theorem written_determines (source source' : String) : ∃ ss ts,
    (parse (Token.scan source).1).1 = some ss ∧ (parse (Token.scan source').1).1 = some ts ∧
    (writtenProgram ss = writtenProgram ts ↔ ss.map Stmt.essence = ts.map Stmt.essence) := by
  obtain ⟨ss, reports, hss⟩ := parse_scan_some source
  obtain ⟨ts, reports', hts⟩ := parse_scan_some source'
  refine ⟨ss, ts, by rw [hss], by rw [hts], fun h => ?_, fun h => ?_⟩
  · obtain ⟨number, hnumber⟩ := Number.exists_reading
    obtain ⟨fs, hfs, hwritten, hnodes⟩ :=
      exists_forms ((shownLaw hnumber (Token.scan_lexed source)).parse (by rw [hss]))
    obtain ⟨gs, hgs, hwritten', hnodes'⟩ :=
      exists_forms ((shownLaw hnumber (Token.scan_lexed source')).parse (by rw [hts]))
    have hforms : fs = gs := by
      refine renderAll_injective (show '\n' ∈ delimiters by decide) hfs hgs ?_
      rw [← hwritten, ← hwritten', h]
    have hsome : Function.Injective fun t : Stmt => some (Node.stmt t) := fun t u htu => by simpa using htu
    exact hsome.list_map (by rw [← hnodes, ← hnodes', hforms])
  · rw [writtenProgram, writtenProgram, ← writtenStmts_essence ss, ← writtenStmts_essence ts, essenceOfStmts_eq,
      essenceOfStmts_eq, h]

end LoxLang
