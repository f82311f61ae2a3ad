import Offside.Proofs.References

/-!
# Diagnostics before a program runs

Each of the three phases before a program runs pins its diagnostics to something in the text: scanning
to a stretch of it, parsing to a token, the analysis of scopes to a token that the tree keeps. None of
them is attributed to a source unit yet, and none of them has a cause that arises at run time.

* `Scope.PinnedTo`: findings whose errors are pinned to the tokens of a tree;
* `Session.errors_of_compile`: the diagnostics of all three phases;
* `Session.after`: a session in which texts have run.
-/

namespace Offside

namespace Scope

/-- Findings whose errors are about scopes and are pinned to one of several tokens. -/
def PinnedTo (marks : List Mark) (found : Findings) : Prop :=
  ∀ d ∈ found.errors, ∃ m ∈ marks, ∃ e, d = m.2.diagnose (.scope e)

variable {marks more : List Mark} {f g : Findings}

theorem pinnedTo_none : PinnedTo marks Findings.none := by simp [PinnedTo, Findings.none]

theorem pinnedTo_error (role : Role) {t : Token} (e : ScopeError) (h : (role, t) ∈ marks) :
    PinnedTo marks (Findings.error t e) := by
  intro d hd
  exact ⟨_, h, e, List.mem_singleton.1 hd⟩

theorem PinnedTo.mono (h : PinnedTo marks f) (hsub : marks ⊆ more) : PinnedTo more f := by
  intro d hd
  obtain ⟨m, hm, he⟩ := h d hd
  exact ⟨m, hsub hm, he⟩

theorem PinnedTo.append (hf : PinnedTo marks f) (hg : PinnedTo marks g) :
    PinnedTo marks (f ++ g) :=
  fun d hd => (List.mem_append.1 hd).elim (hf d) (hg d)

/-- Findings about parts of code that stand one after the other. -/
theorem PinnedTo.both (hf : PinnedTo marks f) (hg : PinnedTo more g) :
    PinnedTo (marks ++ more) (f ++ g) :=
  (hf.mono (List.subset_append_left _ _)).append (hg.mono (List.subset_append_right _ _))

theorem pinnedTo_access {scopes : List Names} (role : Role) {name : Token}
    (h : (role, name) ∈ marks) : PinnedTo marks (access scopes name) := by
  unfold access
  split
  · intro d hd
    exact absurd hd List.not_mem_nil
  · exact pinnedTo_error role _ h

theorem pinnedTo_declare {scope : Names} (role : Role) {name : Token} (h : (role, name) ∈ marks) :
    PinnedTo marks (declare scope name).2 := by
  unfold declare
  split
  · exact pinnedTo_error role _ h
  · exact pinnedTo_none

theorem pinnedTo_declareAll {scope : Names} (names : List Token) :
    PinnedTo (names.map (Role.declaration, ·)) (declareAll scope names).2 := by
  induction names generalizing scope with
  | nil => exact pinnedTo_none
  | cons name names ih =>
    rw [declareAll_cons]
    exact PinnedTo.append (pinnedTo_declare .declaration (by simp))
      (ih.mono (List.subset_cons_self _ _))

theorem pinnedTo_checkReturn {b : Bool} (role : Role) {t : Token} (h : (role, t) ∈ marks) :
    PinnedTo marks (checkReturn b t) := by
  unfold checkReturn
  split
  · exact pinnedTo_none
  · exact pinnedTo_error role _ h

mutual

theorem pinnedTo_ofExpr {scopes : List Names} {pending : Option String} :
    ∀ e : Expr, PinnedTo e.marks (ofExpr scopes pending e)
  | .constant _ => pinnedTo_none
  | .variable name => by
    rw [ofExpr]
    refine PinnedTo.append ?_ (pinnedTo_access .reference (by simp [Expr.marks]))
    split
    · exact pinnedTo_error .reference _ (by simp [Expr.marks])
    · exact pinnedTo_none
  | .group inner => pinnedTo_ofExpr inner
  | .unary _ _ operand => (pinnedTo_ofExpr operand).mono (List.subset_cons_self _ _)
  | .binary _ _ left right =>
    (pinnedTo_ofExpr left).both ((pinnedTo_ofExpr right).mono (List.subset_cons_self _ _))
  | .logical _ _ left right =>
    (pinnedTo_ofExpr left).both ((pinnedTo_ofExpr right).mono (List.subset_cons_self _ _))
  | .call callee args _ =>
    ((pinnedTo_ofExpr callee).both (pinnedTo_ofExprs args)).mono (List.subset_append_left _ _)

theorem pinnedTo_ofExprs {scopes : List Names} {pending : Option String} :
    ∀ es : List Expr, PinnedTo (Expr.allMarks es) (ofExprs scopes pending es)
  | [] => pinnedTo_none
  | e :: es => (pinnedTo_ofExpr e).both (pinnedTo_ofExprs es)

end

mutual

theorem pinnedTo_ofStmt {b : Bool} {outer : List Names} {scope : Names} :
    ∀ s : Stmt, PinnedTo s.marks (ofStmt b outer scope s).2
  | .block body => pinnedTo_ofStmts body
  | .change target value =>
    ((pinnedTo_ofExpr value).mono (List.subset_cons_self _ _)).append
      (pinnedTo_access .reference List.mem_cons_self)
  | .create name value => by
    rw [ofStmt_create]
    exact PinnedTo.append (pinnedTo_declare .declaration List.mem_cons_self)
      ((pinnedTo_ofExpr value).mono (List.subset_cons_self _ _))
  | .define name params body => by
    rw [ofStmt_define, Stmt.marks]
    refine PinnedTo.both ?_ (pinnedTo_ofStmts body)
    exact PinnedTo.append (pinnedTo_declare .declaration (by simp))
      ((pinnedTo_declareAll params).mono (List.subset_cons_self _ _))
  | .expression value => pinnedTo_ofExpr value
  | .branch t cond body further => by
    refine PinnedTo.both (PinnedTo.both ?_ (pinnedTo_ofStmts body)) (pinnedTo_ofElse further)
    exact (pinnedTo_ofExpr cond).mono (List.subset_cons_self _ _)
  | .repeatTimes t count body =>
    ((pinnedTo_ofExpr count).mono (List.subset_cons_self _ _)).both (pinnedTo_ofStmts body)
  | .repeatWhile t cond body =>
    ((pinnedTo_ofExpr cond).mono (List.subset_cons_self _ _)).both (pinnedTo_ofStmts body)
  | .returnEmpty t => pinnedTo_checkReturn .word (by simp [Stmt.marks])
  | .returnWith t value =>
    PinnedTo.append (pinnedTo_checkReturn .word (by simp [Stmt.marks]))
      ((pinnedTo_ofExpr value).mono (List.subset_cons_self _ _))

theorem pinnedTo_ofStmts {b : Bool} {outer : List Names} {scope : Names} :
    ∀ ss : List Stmt, PinnedTo (Stmt.allMarks ss) (ofStmts b outer scope ss).2
  | [] => pinnedTo_none
  | s :: ss => by
    rw [ofStmts_cons]
    exact (pinnedTo_ofStmt s).both (pinnedTo_ofStmts ss)

theorem pinnedTo_ofElse {b : Bool} {scopes : List Names} :
    ∀ r : Else, PinnedTo r.marks (ofElse b scopes r)
  | .nothing => pinnedTo_none
  | .block body => pinnedTo_ofStmts body
  | .branch t cond body further => by
    refine PinnedTo.both (PinnedTo.both ?_ (pinnedTo_ofStmts body)) (pinnedTo_ofElse further)
    exact (pinnedTo_ofExpr cond).mono (List.subset_cons_self _ _)

end

end Scope

/-- A diagnostic that no source unit is known of yet, at a place in a text, for a cause that does not
arise at run time. -/
structure Preliminary (text : List Char) (d : Diagnostic) : Prop where
  located : Located text d.line d.place d.span
  file : d.file = none
  cause : d.cause.isRuntime = false

namespace Grammar

theorem exists_end (levels : List Indent) (number offset : Nat) (ended : Bool)
    (lines : List Text.Line) :
    ∃ t ∈ (Layout.scanFrom levels number offset ended lines).tokens, isEnd t := by
  induction lines generalizing levels number offset ended with
  | nil =>
    rw [Layout.scanFrom, Layout.close]
    exact ⟨_, List.mem_append_right _ List.mem_cons_self, rfl⟩
  | cons line lines ih =>
    obtain ⟨t, ht, hend⟩ := ih (Layout.scanLine levels (number + 1) offset line).1 (number + 1)
      (offset + line.size) line.ended
    exact ⟨t, List.mem_append_right _ ht, hend⟩

/-- The end token that parsing sees is the one of the text. -/
theorem endToken_mem_scan (text : List Char) :
    endToken (Layout.scan text).tokens ∈ (Layout.scan text).tokens := by
  obtain ⟨t, ht, hend⟩ := exists_end [] 0 0 true (Text.lines text)
  unfold endToken
  cases hfind : (Layout.scan text).tokens.find? isEnd with
  | none => exact absurd hend (List.find?_eq_none.1 hfind t ht)
  | some u => exact List.mem_of_find?_eq_some hfind

theorem preliminary_of_read {text : List Char} {errors : List Diagnostic}
    (h : read text = .error errors) : ∀ d ∈ errors, Preliminary text d := by
  have hscan := Layout.faithful_scan text
  unfold read at h
  simp only at h
  split at h
  · split at h
    · cases h
    · rw [← Except.error.inj h]
      intro d hd
      obtain ⟨t, ht, e, rfl⟩ := (parse_tracks (Layout.scan text).tokens).2 d hd
      refine ⟨hscan.located t ?_, rfl, rfl⟩
      rcases List.mem_cons.1 ht with rfl | ht
      · exact endToken_mem_scan text
      · exact (List.takeWhile_sublist _).subset ht
  · rw [← Except.error.inj h]
    intro d hd
    obtain ⟨hlocated, hfile, e, he⟩ := hscan.errors d hd
    exact ⟨hlocated, hfile, by rw [he]; rfl⟩

/-- The tokens that the tree of a program keeps are located in its text. -/
theorem located_of_read {text : List Char} {program : List Stmt} (h : read text = .ok program)
    {m : Mark} (hm : m ∈ Stmt.allMarks program) :
    Located text m.2.line m.2.place m.2.span :=
  (Layout.faithful_scan text).located m.2
    ((kept_of_read h).1.subset (List.mem_map_of_mem (f := Prod.snd) hm))

end Grammar

namespace Session

theorem compile_eq_ok {globals : Names} {text : List Char} {program : Compiled}
    (h : compile globals text = .ok program) :
    Grammar.read text = .ok program.stmts ∧ (Scope.resolve globals program.stmts).errors = [] ∧
      program.scope = ScopeMap.ofReferences (Scope.resolve globals program.stmts).references := by
  unfold compile at h
  split at h
  · cases h
  · rename_i stmts hread
    simp only at h
    split at h
    · rename_i herrors
      obtain rfl := Except.ok.inj h
      exact ⟨hread, List.isEmpty_iff.1 herrors, rfl⟩
    · cases h

/-- The distance of every reference of a program that is ready to run can be looked up. -/
theorem recorded_of_compile {globals : Names} {text : List Char} {program : Compiled}
    (h : compile globals text = .ok program) :
    Scope.Recorded program.scope (Scope.resolve globals program.stmts) := by
  obtain ⟨hread, herrors, hscope⟩ := compile_eq_ok h
  rw [hscope]
  exact Scope.recorded_resolve (Grammar.toldApart_of_read hread) herrors

/-- What is wrong with a text that does not compile is preliminary and points into the text. -/
theorem errors_of_compile {globals : Names} {text : List Char} {errors : List Diagnostic}
    (h : compile globals text = .error errors) : ∀ d ∈ errors, Preliminary text d := by
  unfold compile at h
  split at h
  · rename_i errors' hread
    rw [← Except.error.inj h]
    exact Grammar.preliminary_of_read hread
  · rename_i stmts hread
    simp only at h
    split at h
    · cases h
    · rw [← Except.error.inj h]
      intro d hd
      obtain ⟨m, hm, e, rfl⟩ := Scope.pinnedTo_ofStmts stmts d hd
      exact ⟨Grammar.located_of_read hread hm, rfl, rfl⟩

/-! ### Runs one after another -/

/-- A fresh session after source texts have run in it one after another, each in its setting. -/
def after (runs : List (Setting × List Char)) : Session :=
  runs.foldl (fun s r => (s.run r.1 r.2).1) initial

/-- What holds of a fresh session, and after every run if it held before, holds at any time. -/
theorem after_induction {p : Session → Prop} (hinitial : p initial)
    (hrun : ∀ s setting source, p s → p (s.run setting source).1)
    (runs : List (Setting × List Char)) : p (after runs) := by
  suffices h : ∀ s, p s → p (runs.foldl (fun s r => (s.run r.1 r.2).1) s) from h initial hinitial
  induction runs with
  | nil => exact fun s hs => hs
  | cons r runs ih => exact fun s hs => ih _ (hrun s r.1 r.2 hs)

end Session

end Offside
