import LoxLang.Proofs.Reading.Completeness
import LoxLang.Proofs.Lines.Binding
import LoxLang.Proofs.Reading.Deeper
import LoxLang.Proofs.Sessions.Outcome
import LoxLang.Proofs.Token.Newlines

namespace LoxLang

theorem Phrase.Program.append {ts us : List Token} {ss rest : List Stmt} (h : Phrase.Program ts ss)
    (h' : Phrase.Program us rest) : Phrase.Program (ts ++ us) (ss ++ rest) := by
  unfold Program at h h' ⊢
  induction ss generalizing ts with
  | nil =>
    cases h
    exact h'
  | cons t ss ih =>
    cases h with
    | more ht hss =>
      rw [List.append_assoc]
      exact .more ht (ih hss)

theorem bindStmts_append (here : Surroundings) (ts us : List Stmt) : bindStmts here (ts ++ us) = (do
    let ts ← bindStmts here ts
    let us ← bindStmts here us
    pure (ts ++ us)) := by
  induction ts with
  | nil => simp [bindStmts]
  | cons t ts ih => simp [bindStmts, ih]

theorem Context.seen_afterAll_nil {Δ : Context} (h : Δ.seen = []) (ss : List Stmt) : (Δ.afterAll ss).seen = [] := by
  induction ss generalizing Δ with
  | nil => exact h
  | cons t ss ih =>
    refine ih (List.length_eq_zero_iff.1 ?_)
    rw [Context.length_seen_after, h, List.length_nil]

/-- Binding a program at the top leaves no scope behind, and so nothing to the program after it. -/
theorem bindProgram_append {ts us ts' us' : List Stmt} (hplain : ∀ t ∈ ts ++ us, Node.Plain (.stmt t))
    (hts : (bindProgram ts).reports = []) (hus : (bindProgram us).reports = [])
    (hts' : (bindProgram ts).program = .ok ts') (hus' : (bindProgram us).program = .ok us') :
    (bindProgram (ts ++ us)).reports = [] ∧ (bindProgram (ts ++ us)).program = .ok (ts' ++ us') := by
  have halone : ∀ {ss ss' : List Stmt}, (∀ t ∈ ss, Node.Plain (.stmt t)) → (bindProgram ss).reports = [] →
      (bindProgram ss).program = .ok ss' → (bindStmts {} ss).Gives [] ss' [] True := by
    intro ss ss' hss hreports hprogram
    obtain ⟨bound, -, hb⟩ := bindStmts_bindsTo ss {} [] fun t ht => (hss t ht).ordinary
    obtain ⟨hgives, -⟩ := hb {} rfl rfl
    rw [Context.seen_afterAll_nil rfl] at hgives
    obtain ⟨new, found, hrun, hgood⟩ := hgives [] []
    have hrun' : (bindStmts {} ss).run {} = .ok bound ⟨[], new ++ [], found ++ []⟩ := hrun
    simp only [bindProgram, hrun', List.append_nil, List.reverse_eq_nil_iff] at hreports hprogram
    cases hprogram
    exact hgives.congr (iff_true_intro (hgood.1 hreports))
  rw [List.forall_mem_append] at hplain
  have hboth := (halone hplain.1 hts hts').bind (k := fun a => bindStmts {} us >>= fun b => pure (a ++ b))
    ((halone hplain.2 hus hus').map (ts' ++ ·))
  rw [← bindStmts_append] at hboth
  obtain ⟨new, found, hrun, hgood⟩ := hboth [] []
  obtain rfl : new = [] := hgood.2 ⟨trivial, trivial⟩
  have hrun' : (bindStmts {} (ts ++ us)).run {} = .ok (ts' ++ us') ⟨[], [] ++ [], found ++ []⟩ := hrun
  simp [bindProgram, hrun']

/-- Tokens that are read and bound without a report, and the program that they come to. -/
def Yields (ts : List Token) (bound : List Stmt) : Prop :=
  ∃ program, parse ts = (some program, []) ∧ (bindProgram program).reports = [] ∧
    (bindProgram program).program = .ok bound

namespace Yields

variable {ts us : List Token} {last final : Token} {ps qs : List Stmt}

theorem unique (h : Yields ts ps) (h' : Yields ts qs) : ps = qs := by
  obtain ⟨program, hparse, -, hbound⟩ := h
  obtain ⟨program', hparse', -, hbound'⟩ := h'
  rw [hparse'] at hparse
  cases hparse
  rw [hbound'] at hbound
  exact (Except.ok.inj hbound).symm

theorem reline (h : Yields ts ps) (f : Int → Int) : Yields (ts.map (Token.reline f)) (ps.map (Stmt.reline f)) := by
  obtain ⟨program, hparse, hreports, hbound⟩ := h
  obtain ⟨hbound', hreports'⟩ := bindProgram_reline f program
  refine ⟨program.map (Stmt.reline f), parse_reline f hparse, ?_, ?_⟩
  · rw [hreports', hreports]
    rfl
  · rw [hbound', hbound]
    rfl

theorem append (hts : ∀ t ∈ ts, t.kind ≠ .eof ∧ t.Proper) (hus : ∀ t ∈ us, t.kind ≠ .eof ∧ t.Proper)
    (hlast : last.kind = .eof) (hend : final.kind = .eof) (hp : Yields (ts ++ [last]) ps)
    (hq : Yields (us ++ [final]) qs) : Yields (ts ++ us ++ [final]) (ps ++ qs) := by
  obtain ⟨program, hparse, hreports, hbound⟩ := hp
  obtain ⟨program', hparse', hreports', hbound'⟩ := hq
  have hderives : ∀ {body : List Token} {e : Token} {ss : List Stmt}, (∀ t ∈ body, t.kind ≠ .eof ∧ t.Proper) →
      e.kind = .eof → parse (body ++ [e]) = (some ss, []) → Phrase.Program body ss := by
    intro body e ss hbody he hread
    obtain ⟨ss', reports, hparse, hsound⟩ := parse_sound (fun t ht => (hbody t ht).1) he
    rw [hread] at hparse
    cases hparse
    exact hsound rfl
  have hprogram := (hderives hts hlast hparse).append (hderives hus hend hparse')
  have hplain : ∀ t ∈ program ++ program', Node.Plain (.stmt t) := List.forall_mem_append.2
    ⟨fun t ht => (parse_shaped (Token.proper_append hts hlast) (congrArg Prod.fst hparse) t ht).plain,
      fun t ht => (parse_shaped (Token.proper_append hus hend) (congrArg Prod.fst hparse') t ht).plain⟩
  obtain ⟨hnone, hboth⟩ := bindProgram_append hplain hreports hreports' hbound hbound'
  exact ⟨program ++ program', parse_complete hend hprogram, hnone, hboth⟩

end Yields

/-- A text without a report, and the program it is bound to. -/
def Accepted (source : String) (bound : List Stmt) : Prop :=
  (Token.scan source).2 = [] ∧ Yields (Token.scan source).1 bound

theorem staticReports_eq_nil_iff {source : String} : staticReports source = [] ↔ ∃ bound, Accepted source bound := by
  rw [staticReports_eq_nil]
  exact ⟨fun ⟨hscan, program, bound, h⟩ => ⟨bound, hscan, program, h⟩,
    fun ⟨bound, hscan, program, h⟩ => ⟨hscan, program, bound, h⟩⟩

namespace Accepted

variable {source p q : String} {bound ps qs : List Stmt} {f g h : Int → Int}

theorem run (ha : Accepted source bound) {s : Session} (hs : s.journal.hadError = false) (fuel : Nat) :
    s.run fuel false source = s.execute fuel bound := by
  obtain ⟨hscan, program, hparse, hreports, hbound⟩ := ha
  cases program with
  | nil =>
    cases hbound
    unfold Session.run
    simp only [hparse, hscan]
    rfl
  | cons t ts =>
    have hprepared := @Session.prepared_of_accepted false _ _ _ _ _ hs hscan hparse hreports hbound
    rw [Session.run_of_prepared hprepared]
    obtain _ | ⟨u, _ | ⟨v, vs⟩⟩ := bound <;> rfl

theorem of_prepared {j : Journal} {interactive : Bool} {ss : List Stmt}
    (h : Session.prepared? interactive source j = some ss) :
    ∃ bound, Accepted source bound ∧ ss = Session.asRun interactive bound := by
  obtain ⟨t, ts, bound, -, hscan, hread, hreports, hbound, rfl⟩ := Session.accepted_of_prepared h
  exact ⟨bound, ⟨hscan, t :: ts, hread, hreports, hbound⟩, rfl⟩

theorem newlines (hq : Accepted q qs) (n : Nat) :
    Accepted (String.ofList (List.replicate n '\n') ++ q) (qs.map (Stmt.reline (· + n))) := by
  have hscan := Token.scan_newlines hq.1 n
  refine ⟨by rw [hscan], ?_⟩
  rw [hscan]
  exact hq.2.reline _

theorem join (hp : Accepted p ps) (hq : Accepted q qs) :
    Accepted (p ++ "\n" ++ q) (ps ++ qs.map (Stmt.reline (· + Token.linesOf p))) := by
  obtain ⟨⟨body, last, hbody, hlast, hjoined⟩, hreports⟩ := Token.scan_join hp.1 q
  refine ⟨hreports hq.1, ?_⟩
  obtain ⟨ts, last', hts, -, hproper⟩ := Token.scan_proper p
  obtain ⟨us, final, hus, hend, husproper⟩ := Token.scan_proper q
  obtain ⟨rfl, -⟩ := List.append_inj' (hbody.symm.trans hts) rfl
  have hyields := hq.2.reline (· + Token.linesOf p)
  rw [hus, List.map_append] at hyields
  rw [hjoined, hus, List.map_append, ← List.append_assoc]
  refine Yields.append hproper ?_ hlast hend (hbody ▸ hp.2) hyields
  intro t ht
  obtain ⟨u, hu, rfl⟩ := List.mem_map.1 ht
  exact husproper u hu

theorem reline_reline (ha : Accepted source bound) (hfg : ∀ n, 1 ≤ n → g (f n) = h n) :
    (bound.map (Stmt.reline f)).map (Stmt.reline g) = bound.map (Stmt.reline h) := by
  have htokens : ((Token.scan source).1.map (Token.reline f)).map (Token.reline g) =
      (Token.scan source).1.map (Token.reline h) := by
    rw [List.map_map]
    refine List.map_congr_left fun t ht => ?_
    have hline := hfg t.line (Token.scan_line_pos source t ht)
    simp only [Function.comp, Token.reline, hline]
  have hyields := (ha.2.reline f).reline g
  rw [htokens] at hyields
  exact hyields.unique (ha.2.reline h)

theorem reline_self (ha : Accepted source bound) (hf : ∀ n, 1 ≤ n → f n = n) :
    bound.map (Stmt.reline f) = bound := by
  have htokens : (Token.scan source).1.map (Token.reline f) = (Token.scan source).1 := by
    refine (List.map_congr_left fun t ht => ?_).trans (List.map_id _)
    have hline := hf t.line (Token.scan_line_pos source t ht)
    simp only [id_eq, Token.reline, hline]
  have hyields := ha.2.reline f
  rw [htokens] at hyields
  exact hyields.unique ha.2

end Accepted

end LoxLang
