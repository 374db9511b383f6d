import LoxLang.Proofs.Token.Strays

namespace LoxLang

def Report.Unterminated (r : Report) : Prop :=
  r.complaint = .unterminatedString ∨ r.complaint = .unterminatedComment

instance : DecidablePred Report.Unterminated := fun r =>
  inferInstanceAs (Decidable (r.complaint = .unterminatedString ∨ r.complaint = .unterminatedComment))

namespace Piece

def openReports (ps : List Piece) : List Report := (ps.flatMap openComplaints).map (⟨.line (lastLine ps), ·⟩)

def strayReports (ps : List Piece) : List Report :=
  (gather (straysFrom 1 ps)).map fun (line, cs) => ⟨.line line, .unexpectedCharacters cs⟩

variable {ps : List Piece}

theorem unterminated_of_openReports : ∀ r ∈ openReports ps, r.Unterminated := by
  refine List.forall_mem_map.2 fun k hk => ?_
  obtain ⟨p, -, hk⟩ := List.mem_flatMap.1 hk
  cases p with
  | openString => exact .inl (List.mem_singleton.1 hk)
  | openComment => exact .inr (List.eq_of_mem_replicate hk)
  | _ => cases hk

theorem not_unterminated_of_strayReports : ∀ r ∈ strayReports ps, ¬ r.Unterminated := by
  refine List.forall_mem_map.2 fun x _ => ?_
  rintro (h | h) <;> cases h

theorem reports_eq (ps : List Piece) : reports ps = openReports ps ++ strayReports ps := rfl

theorem filter_reports_unterminated (ps : List Piece) :
    (reports ps).filter (fun r => r.Unterminated) = openReports ps := by
  rw [reports_eq, List.filter_append, List.filter_eq_self.2, List.filter_eq_nil_iff.2, List.append_nil]
  · simpa using not_unterminated_of_strayReports
  · simpa using unterminated_of_openReports

theorem filter_reports_stray (ps : List Piece) :
    (reports ps).filter (fun r => ¬ r.Unterminated) = strayReports ps := by
  rw [reports_eq, List.filter_append, List.filter_eq_nil_iff.2, List.filter_eq_self.2, List.nil_append]
  · simpa using not_unterminated_of_strayReports
  · simpa using unterminated_of_openReports

end Piece

namespace Token

section join

variable {s : String} (h : ∀ p ∈ Piece.cut s.toList, Piece.openComplaints p = []) (t : String)

include h

theorem openReports_join : Piece.openReports (Piece.cut (s ++ "\n" ++ t).toList) =
    (Piece.openReports (Piece.cut t.toList)).map (Report.reline (· + linesOf s)) := by
  have hnone : (Piece.cut s.toList).flatMap Piece.openComplaints = [] := List.flatMap_eq_nil_iff.2 h
  have hlast : Piece.lastLine (Piece.cut s.toList ++ .blank '\n' :: Piece.cut t.toList) =
      Piece.lastLine (Piece.cut t.toList) + linesOf s := by
    rw [Piece.lastLine, List.foldl_append, List.foldl_cons, endLine_join, Piece.lastLine, Piece.foldl_endLine,
      Piece.foldl_endLine]
    omega
  rw [cut_join h, Piece.openReports, Piece.openReports, List.flatMap_append, List.flatMap_cons, hnone, hlast,
    List.map_map]
  rfl

theorem strayReports_join : Piece.strayReports (Piece.cut (s ++ "\n" ++ t).toList) =
    Piece.strayReports (Piece.cut s.toList) ++
      (Piece.strayReports (Piece.cut t.toList)).map (Report.reline (· + linesOf s)) := by
  have hstrays : Piece.straysFrom 1 (Piece.cut s.toList ++ .blank '\n' :: Piece.cut t.toList) =
      Piece.straysFrom 1 (Piece.cut s.toList) ++
        (Piece.straysFrom 1 (Piece.cut t.toList)).map fun x => (x.1 + (linesOf s : Int), x.2) := by
    rw [Piece.straysFrom_append (Piece.cut_stray s.toList), ← Piece.straysFrom_add, ← endLine_join]
    rfl
  have hlines : ∀ x ∈ Piece.straysFrom 1 (Piece.cut s.toList),
      ∀ y ∈ (Piece.straysFrom 1 (Piece.cut t.toList)).map fun x => (x.1 + (linesOf s : Int), x.2), x.1 < y.1 := by
    intro x hx
    refine List.forall_mem_map.2 fun y hy => ?_
    have hbefore := Piece.straysFrom_le x hx
    have hafter := Piece.le_of_mem_straysFrom y hy
    rw [Piece.foldl_endLine, Piece.cut_text] at hbefore
    simp only [linesOf]
    omega
  rw [cut_join h, Piece.strayReports, hstrays, Piece.gather_append hlines, Piece.gather_add, List.map_append,
    List.map_map, Piece.strayReports, Piece.strayReports, List.map_map]
  rfl

end join

/-- If the first of two texts leaves nothing open, they are scanned as if each stood alone, the second as many lines
further down as the first takes up. -/
theorem scan_across_newline {s : String} (h : ∀ r ∈ (scan s).2, ¬ r.Unterminated) (t : String) :
    let further (line : Int) := line + (1 + Piece.newlines s.toList)
    (scan (s ++ "\n" ++ t)).1 = (scan s).1.filter (·.kind ≠ .eof) ++ (scan t).1.map (reline further) ∧
    (scan (s ++ "\n" ++ t)).2 =
      ((scan t).2.filter (fun r => r.Unterminated)).map (Report.reline further) ++
      (scan s).2.filter (fun r => ¬ r.Unterminated) ++
      ((scan t).2.filter (fun r => ¬ r.Unterminated)).map (Report.reline further) := by
  have hclosed : ∀ p ∈ Piece.cut s.toList, Piece.openComplaints p = [] := by
    have hnone : Piece.openReports (Piece.cut s.toList) = [] := by
      rw [← Piece.filter_reports_unterminated]
      exact List.filter_eq_nil_iff.2 fun r hr => by simpa using h r hr
    exact List.flatMap_eq_nil_iff.1 (List.map_eq_nil_iff.1 hnone)
  intro further
  have hfurther : further = (· + (linesOf s : Int)) := by
    simp only [further, linesOf]
    push_cast
    rfl
  rw [hfurther]
  constructor
  · obtain ⟨body, last, hbody, -, hjoin⟩ := tokens_join hclosed t
    rw [filter_scan hbody, hjoin]
  · rw [scan, Piece.reports_eq, openReports_join hclosed, strayReports_join hclosed,
      ← Piece.filter_reports_unterminated, ← Piece.filter_reports_stray, ← Piece.filter_reports_stray, List.append_assoc]
    rfl

theorem strayTexts_across_newline :
    (∀ r ∈ (scan "a @\n#").2, ¬ r.Unterminated) ∧
    (scan ("a @\n#" ++ "\n" ++ "b $ \"c")).1.map (fun t => (t.lexeme, t.line)) = [("a", 1), ("b", 3), ("", 3)] ∧
    (scan ("a @\n#" ++ "\n" ++ "b $ \"c")).2.map (fun r => (r.place.lineNumber, r.complaint)) =
      [(3, .unterminatedString), (1, .unexpectedCharacters ['@']), (2, .unexpectedCharacters ['#']),
        (3, .unexpectedCharacters ['$'])] := by
  have h : ∀ r ∈ (scan "a @\n#").2, ¬ r.Unterminated := by decide +kernel
  obtain ⟨htokens, hreports⟩ := scan_across_newline h "b $ \"c"
  refine ⟨h, ?_, ?_⟩
  · rw [htokens]
    decide +kernel
  · rw [hreports]
    decide +kernel

end Token

end LoxLang
