import Mathlib.Data.List.Perm.Lattice
import Offside.Proofs.Scanning
import Offside.Proofs.Tracking
import Offside.Session

/-!
# References of a program

A program that the analysis of scopes accepts has one entry in its findings for each reference in
its tree, and, since no two names of a text have the same span, the distance of every reference can
be looked up by its span.

* `Scope.Recorded`: findings without errors whose references are in a map of distances;
* `ToldApart`: programs whose names are told apart by their spans;
* `Grammar.toldApart_of_read`, `Scope.recorded_resolve`: the two facts.
-/

namespace Offside

namespace Scope

/-! ### Findings without errors -/

@[simp] theorem Findings.references_append (f g : Findings) :
    (f ++ g).references = f.references ++ g.references := rfl

@[simp] theorem Findings.errors_append (f g : Findings) :
    (f ++ g).errors = f.errors ++ g.errors := rfl

theorem declareAll_cons (scope : Names) (t : Token) (ts : List Token) :
    declareAll scope (t :: ts) =
      ((declareAll (declare scope t).1 ts).1,
        (declare scope t).2 ++ (declareAll (declare scope t).1 ts).2) := rfl

theorem ofStmt_create (b : Bool) (outer : List Names) (scope : Names) (name : Token)
    (value : Expr) :
    ofStmt b outer scope (.create name value) =
      ((declare scope name).1,
        (declare scope name).2 ++
          ofExpr ((declare scope name).1 :: outer) (some name.lexeme) value) := rfl

theorem ofStmt_define (b : Bool) (outer : List Names) (scope : Names) (name : Token)
    (params : List Token) (body : List Stmt) :
    ofStmt b outer scope (.define name params body) =
      ((declare scope name).1,
        (declare scope name).2 ++ (declareAll [] params).2 ++
          (ofStmts true ((declare scope name).1 :: outer) (declareAll [] params).1 body).2) := rfl

theorem ofStmts_cons (b : Bool) (outer : List Names) (scope : Names) (s : Stmt) (ss : List Stmt) :
    ofStmts b outer scope (s :: ss) =
      ((ofStmts b outer (ofStmt b outer scope s).1 ss).1,
        (ofStmt b outer scope s).2 ++ (ofStmts b outer (ofStmt b outer scope s).1 ss).2) := rfl

/-- Findings without errors whose references have their distances in a map. -/
structure Recorded (map : ScopeMap) (found : Findings) : Prop where
  errors : found.errors = []
  references : ∀ r ∈ found.references, map[r.1]? = some r.2

variable {map : ScopeMap}

theorem not_recorded_error (t : Token) (e : ScopeError) : ¬ Recorded map (Findings.error t e) :=
  fun h => absurd h.errors (by simp [Findings.error])

theorem recorded_append {f g : Findings} :
    Recorded map (f ++ g) ↔ Recorded map f ∧ Recorded map g := by
  constructor
  · rintro ⟨herrors, hrefs⟩
    obtain ⟨hf, hg⟩ := List.append_eq_nil_iff.1 herrors
    exact ⟨⟨hf, fun r hr => hrefs r (List.mem_append_left _ hr)⟩,
      ⟨hg, fun r hr => hrefs r (List.mem_append_right _ hr)⟩⟩
  · rintro ⟨hf, hg⟩
    refine ⟨by simp [hf.errors, hg.errors], fun r hr => ?_⟩
    exact (List.mem_append.1 hr).elim (hf.references r) (hg.references r)

theorem recorded_access {scopes : List Names} {name : Token}
    (h : Recorded map (access scopes name)) :
    ∃ d, distance? name.lexeme scopes = some d ∧ map[name.span]? = some d := by
  unfold access at h
  cases hd : distance? name.lexeme scopes with
  | none =>
    rw [hd] at h
    exact absurd h (not_recorded_error _ _)
  | some d =>
    rw [hd] at h
    exact ⟨d, rfl, h.references (name.span, d) (by simp)⟩

theorem recorded_declare {scope : Names} {name : Token} (h : Recorded map (declare scope name).2) :
    name.lexeme ∉ scope ∧ (declare scope name).1 = name.lexeme :: scope := by
  unfold declare at h ⊢
  split at h
  · exact absurd h (not_recorded_error _ _)
  · rename_i hmem
    exact ⟨hmem, by rw [if_neg hmem]⟩

theorem recorded_checkReturn {b : Bool} {t : Token} (h : Recorded map (checkReturn b t)) :
    b = true := by
  unfold checkReturn at h
  split at h
  · assumption
  · exact absurd h (not_recorded_error _ _)

/-! ### References found and references in the tree -/

theorem references_access {scopes : List Names} {name : Token}
    (h : (access scopes name).errors = []) :
    (access scopes name).references.map (·.1) = [name.span] := by
  unfold access at h ⊢
  cases hd : distance? name.lexeme scopes with
  | none => simp [hd, Findings.error] at h
  | some d => rfl

mutual

theorem references_ofExpr {scopes : List Names} {pending : Option String} :
    ∀ e, (ofExpr scopes pending e).errors = [] →
      (ofExpr scopes pending e).references.map (·.1) = (references e.marks).map (·.span)
  | .constant _, _ => rfl
  | .variable name, h => by
    obtain ⟨hpending, haccess⟩ := List.append_eq_nil_iff.1 h
    rw [ofExpr]
    split at hpending
    · simp [Findings.error] at hpending
    · rename_i hne
      rw [if_neg hne]
      exact references_access haccess
  | .group inner, h => references_ofExpr inner h
  | .unary _ _ operand, h => references_ofExpr operand h
  | .binary _ _ left right, h => by
    obtain ⟨hleft, hright⟩ := List.append_eq_nil_iff.1 h
    simp [ofExpr, Expr.marks, references_cons, references_ofExpr left hleft,
      references_ofExpr right hright]
  | .logical _ _ left right, h => by
    obtain ⟨hleft, hright⟩ := List.append_eq_nil_iff.1 h
    simp [ofExpr, Expr.marks, references_cons, references_ofExpr left hleft,
      references_ofExpr right hright]
  | .call callee args _, h => by
    obtain ⟨hcallee, hargs⟩ := List.append_eq_nil_iff.1 h
    simp [ofExpr, Expr.marks, references_cons, references_ofExpr callee hcallee,
      references_ofExprs args hargs]

theorem references_ofExprs {scopes : List Names} {pending : Option String} :
    ∀ es, (ofExprs scopes pending es).errors = [] →
      (ofExprs scopes pending es).references.map (·.1) = (references (Expr.allMarks es)).map (·.span)
  | [], _ => rfl
  | e :: es, h => by
    obtain ⟨he, hes⟩ := List.append_eq_nil_iff.1 h
    simp [ofExprs, Expr.allMarks, references_ofExpr e he, references_ofExprs es hes]

end

@[simp] theorem references_declare (scope : Names) (name : Token) :
    (declare scope name).2.references = [] := by
  unfold declare
  split <;> rfl

@[simp] theorem references_declareAll (scope : Names) (names : List Token) :
    (declareAll scope names).2.references = [] := by
  induction names generalizing scope with
  | nil => rfl
  | cons name names ih => rw [declareAll_cons]; simp [ih]

@[simp] theorem references_checkReturn (b : Bool) (token : Token) :
    (checkReturn b token).references = [] := by
  unfold checkReturn
  split <;> rfl

@[simp] theorem references_declarations (ts : List Token) :
    references (ts.map (Role.declaration, ·)) = [] := by
  induction ts with
  | nil => rfl
  | cons t ts ih => simp [references_cons, ih]

mutual

/-- A target of `change` is found after the references of its value, so the order is not kept. -/
theorem references_ofStmt {b : Bool} {outer : List Names} {scope : Names} :
    ∀ s, (ofStmt b outer scope s).2.errors = [] →
      ((ofStmt b outer scope s).2.references.map (·.1)).Perm ((references s.marks).map (·.span))
  | .block body, h => references_ofStmts body h
  | .change target value, h => by
    obtain ⟨hvalue, htarget⟩ := List.append_eq_nil_iff.1 h
    simp only [ofStmt, Stmt.marks, references_cons, Findings.references_append, List.map_append,
      references_ofExpr value hvalue, references_access htarget]
    exact List.perm_append_comm
  | .create name value, h => by
    rw [ofStmt_create] at h ⊢
    obtain ⟨-, hvalue⟩ := List.append_eq_nil_iff.1 h
    simpa [Stmt.marks, references_cons] using .of_eq (references_ofExpr value hvalue)
  | .define name params body, h => by
    rw [ofStmt_define] at h ⊢
    obtain ⟨-, hbody⟩ := List.append_eq_nil_iff.1 h
    simpa [Stmt.marks, references_cons] using references_ofStmts body hbody
  | .expression value, h => .of_eq (references_ofExpr value h)
  | .branch t cond body further, h => by
    obtain ⟨hhead, hfurther⟩ := List.append_eq_nil_iff.1 h
    obtain ⟨hcond, hbody⟩ := List.append_eq_nil_iff.1 hhead
    simpa [ofStmt, Stmt.marks, references_cons] using
      (.of_eq (references_ofExpr cond hcond) : List.Perm _ _).append
        ((references_ofStmts body hbody).append (references_ofElse further hfurther))
  | .repeatTimes t count body, h => by
    obtain ⟨hcount, hbody⟩ := List.append_eq_nil_iff.1 h
    simpa [ofStmt, Stmt.marks, references_cons] using
      (.of_eq (references_ofExpr count hcount) : List.Perm _ _).append (references_ofStmts body hbody)
  | .repeatWhile t cond body, h => by
    obtain ⟨hcond, hbody⟩ := List.append_eq_nil_iff.1 h
    simpa [ofStmt, Stmt.marks, references_cons] using
      (.of_eq (references_ofExpr cond hcond) : List.Perm _ _).append (references_ofStmts body hbody)
  | .returnEmpty t, _ => by simp [ofStmt, Stmt.marks, references_cons]
  | .returnWith t value, h => by
    obtain ⟨-, hvalue⟩ := List.append_eq_nil_iff.1 h
    simpa [ofStmt, Stmt.marks, references_cons] using .of_eq (references_ofExpr value hvalue)

theorem references_ofStmts {b : Bool} {outer : List Names} {scope : Names} :
    ∀ ss, (ofStmts b outer scope ss).2.errors = [] →
      ((ofStmts b outer scope ss).2.references.map (·.1)).Perm
        ((references (Stmt.allMarks ss)).map (·.span))
  | [], _ => .nil
  | s :: ss, h => by
    obtain ⟨hs, hss⟩ := List.append_eq_nil_iff.1 h
    rw [ofStmts_cons]
    simpa [Stmt.allMarks] using (references_ofStmt s hs).append (references_ofStmts ss hss)

theorem references_ofElse {b : Bool} {scopes : List Names} :
    ∀ r, (ofElse b scopes r).errors = [] →
      ((ofElse b scopes r).references.map (·.1)).Perm ((references r.marks).map (·.span))
  | .nothing, _ => .nil
  | .block body, h => references_ofStmts body h
  | .branch t cond body further, h => by
    obtain ⟨hhead, hfurther⟩ := List.append_eq_nil_iff.1 h
    obtain ⟨hcond, hbody⟩ := List.append_eq_nil_iff.1 hhead
    simpa [ofElse, Else.marks, references_cons] using
      (.of_eq (references_ofExpr cond hcond) : List.Perm _ _).append
        ((references_ofStmts body hbody).append (references_ofElse further hfurther))

end

end Scope

/-! ### Distances by span -/

/-- The map built so far is kept at the spans that do not come again. -/
theorem ScopeMap.getElem?_foldl_insert {span : Span} {references : List (Span × Nat)}
    (hspan : span ∉ references.map (·.1)) (m : ScopeMap) :
    (references.foldl (fun m r => m.insert r.1 r.2) m)[span]? = m[span]? := by
  induction references generalizing m with
  | nil => rfl
  | cons r references ih =>
    have hne : r.1 ≠ span := fun h => hspan (by simp [h])
    rw [List.foldl_cons, ih fun h => hspan (by simp [h]), Std.HashMap.getElem?_insert]
    simp [hne]

theorem ScopeMap.getElem?_ofReferences_of_notMem {references : List (Span × Nat)} {span : Span}
    (hspan : span ∉ references.map (·.1)) : (ScopeMap.ofReferences references)[span]? = none := by
  rw [ScopeMap.ofReferences, getElem?_foldl_insert hspan, Std.HashMap.getElem?_empty]

theorem ScopeMap.mem_of_mem_ofReferences {references : List (Span × Nat)} {span : Span}
    (h : span ∈ ofReferences references) : span ∈ references.map (·.1) := by
  by_contra hnot
  rw [Std.HashMap.mem_iff_isSome_getElem?, getElem?_ofReferences_of_notMem hnot] at h
  cases h

theorem ScopeMap.getElem?_ofReferences {references : List (Span × Nat)}
    (hnodup : (references.map (·.1)).Nodup) {span : Span} {distance : Nat}
    (hmem : (span, distance) ∈ references) :
    (ScopeMap.ofReferences references)[span]? = some distance := by
  obtain ⟨before, after, rfl⟩ := List.append_of_mem hmem
  have hafter : span ∉ after.map (·.1) := by
    intro h
    rw [List.map_append, List.map_cons] at hnodup
    exact (List.nodup_cons.1 (List.nodup_append.1 hnodup).2.1).1 h
  rw [ScopeMap.ofReferences, List.foldl_append, List.foldl_cons, getElem?_foldl_insert hafter]
  simp

/-! ### Names of a program -/

/-- The names in a tree, whether they refer to a variable or declare one. -/
def names (marks : List Mark) : List Token :=
  (marks.filter fun m => m.1 = .reference ∨ m.1 = .declaration).map (·.2)

/-- No two names of a program have the same span. -/
def ToldApart (program : List Stmt) : Prop :=
  ((names (Stmt.allMarks program)).map (·.span)).Nodup

instance (program : List Stmt) : Decidable (ToldApart program) :=
  inferInstanceAs (Decidable (List.Nodup _))

theorem references_sublist_names (marks : List Mark) : (references marks).Sublist (names marks) := by
  unfold references names
  refine List.Sublist.map _ (List.monotone_filter_right marks fun m hm => ?_)
  simp at hm ⊢
  exact .inl hm

namespace Grammar

theorem stmts_of_read {text : List Char} {program : List Stmt} (h : read text = .ok program) :
    (parse (Layout.scan text).tokens).stmts = program := by
  unfold read at h
  simp only at h
  split at h
  · split at h
    · exact Except.ok.inj h
    · cases h
  · cases h

/-- The tokens that a tree keeps are tokens of its text, in the same order. -/
theorem kept_parse (text : List Char) :
    Kept (Stmt.allMarks (parse (Layout.scan text).tokens).stmts) (Layout.scan text).tokens := by
  obtain ⟨⟨hsub, hkinds⟩, -⟩ := parse_tracks (Layout.scan text).tokens
  exact ⟨hsub.trans (List.takeWhile_sublist _), hkinds⟩

theorem kept_of_read {text : List Char} {program : List Stmt} (h : read text = .ok program) :
    Kept (Stmt.allMarks program) (Layout.scan text).tokens := by
  rw [← stmts_of_read h]
  exact kept_parse text

/-- The names that a tree keeps are the identifiers of a part of its text. -/
theorem names_sublist_identifiers {marks : List Mark} {tokens : List Token}
    (h : Kept marks tokens) :
    (names marks).Sublist (tokens.filter fun t => t.kind = .identifier) := by
  obtain ⟨hsub, hkinds⟩ := h
  have hkind : ∀ t ∈ names marks, t.kind = .identifier := by
    intro t ht
    obtain ⟨⟨role, t⟩, hm, rfl⟩ := List.mem_map.1 ht
    obtain ⟨hm, hrole⟩ := List.mem_filter.1 hm
    have hmem := hkinds _ hm
    rcases of_decide_eq_true hrole with rfl | rfl <;> exact List.mem_singleton.1 hmem
  have hnames : (names marks).Sublist tokens := (List.filter_sublist.map _).trans hsub
  have hident := hnames.filter fun t => t.kind = .identifier
  rwa [List.filter_eq_self.2 fun t ht => decide_eq_true (hkind t ht)] at hident

/-- The names of a tree are told apart, whatever else is wrong with its text. -/
theorem toldApart_parse (text : List Char) :
    ToldApart (parse (Layout.scan text).tokens).stmts := by
  have hscan := Layout.faithful_scan text
  have hpairwise := Layout.pairwise_span_ne hscan.ordered hscan.nonempty
  exact List.pairwise_map.2 (hpairwise.sublist (names_sublist_identifiers (kept_parse text)))

/-- The names of a program that was read from a text are told apart. -/
theorem toldApart_of_read {text : List Char} {program : List Stmt} (h : read text = .ok program) :
    ToldApart program := by
  rw [← stmts_of_read h]
  exact toldApart_parse text

end Grammar

/-- The distance of every reference of an accepted program can be looked up, if no two references
have the same span. -/
theorem Scope.recorded_of_spans {globals : Names} {program : List Stmt}
    (hspans : ((references (Stmt.allMarks program)).map (·.span)).Nodup)
    (h : (resolve globals program).errors = []) :
    Recorded (ScopeMap.ofReferences (resolve globals program).references)
      (resolve globals program) := by
  have hnodup := (references_ofStmts program h).nodup_iff.2 hspans
  exact ⟨h, fun r hr => ScopeMap.getElem?_ofReferences hnodup hr⟩

/-- The distance of every reference of an accepted program can be looked up. -/
theorem Scope.recorded_resolve {globals : Names} {program : List Stmt} (hprogram : ToldApart program)
    (h : (resolve globals program).errors = []) :
    Recorded (ScopeMap.ofReferences (resolve globals program).references)
      (resolve globals program) :=
  recorded_of_spans (hprogram.sublist ((references_sublist_names _).map (·.span))) h

end Offside
