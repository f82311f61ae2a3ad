import Mathlib
import Offside.Proofs.Agreement

/-!
# Renaming one variable

One variable of a program is given a name that occurs nowhere, in its declaration and in exactly the
references to it. The renamed program is accepted, with the same distances, and does the same.

The new name stands in at most one place among the names in scope, since the declaration that it goes
to is told from all others by its span. That is what keeps references and declarations apart.

* `Renaming.single`, `Renaming.program`: the renaming of one variable;
* `Renaming.Apart`: scopes in which the new name leads to no confusion;
* `Renaming.ofStmts_renamed`: the analysis of scopes finds the same in the renamed program;
* `Renaming.alpha_invariance`: acceptance, distances and execution.
-/

namespace Offside

namespace Renaming

open Scope Lockstep

/-! ### One variable -/

/-- The choice of names that renames the variable declared at a span. -/
def single (d : Span) (y : String) (t : Token) : String := if t.span = d then y else t.lexeme

/-- A program with the variable declared at a span renamed, in its declaration and in the references
to it. -/
def program (d : Span) (y : String) (globals : Names) (ss : List Stmt) : List Stmt :=
  (stmts (single d y) [] (globals.map fun n => (n, n)) ss).2

/-- One if a declaration is at a span, and zero if not. -/
def site (d : Span) (t : Token) : Nat := if t.span = d then 1 else 0

/-- The number of declarations at a span. -/
def sites (d : Span) (marks : List Mark) : Nat :=
  marks.countP fun m => m.1 = .declaration ∧ m.2.span = d

/-- No declaration is one of a given name. -/
def Avoids (y : String) (marks : List Mark) : Prop :=
  ∀ m ∈ marks, m.1 = .declaration → m.2.lexeme ≠ y

/-- Scopes in which every name other than `y` is replaced by itself or by `y`, and `y` stands in one
place at most, `n` places to come included. -/
structure Apart (y : String) (n : Nat) (scopes : List Pairs) : Prop where
  replaced : ∀ p ∈ scopes.flatten, p.1 ≠ y ∧ (p.2 = p.1 ∨ p.2 = y)
  once : scopes.flatten.countP (fun p => p.2 = y) + n ≤ 1

section

variable {d : Span} {y : String} {n : Nat} {scopes outer : List Pairs} {scope : Pairs}

theorem sites_append (d : Span) (as bs : List Mark) :
    sites d (as ++ bs) = sites d as + sites d bs := List.countP_append

theorem sites_cons (d : Span) (t : Token) (marks : List Mark) :
    sites d ((.declaration, t) :: marks) = site d t + sites d marks := by
  simp [sites, site, List.countP_cons, Nat.add_comm]

theorem Avoids.part {as bs : List Mark} (h : Avoids y bs) (hsub : as.Sublist bs) : Avoids y as :=
  fun m hm => h m (hsub.subset hm)

theorem Apart.mono (h : Apart y n scopes) {k : Nat} (hk : k ≤ n) : Apart y k scopes :=
  ⟨h.replaced, by have := h.once; omega⟩

/-- Code that is part of other code has no more declarations to come. -/
theorem Apart.part {as bs : List Mark} (h : Apart y (sites d bs) scopes) (hsub : as.Sublist bs) :
    Apart y (sites d as) scopes :=
  h.mono hsub.countP_le

theorem Apart.inner (h : Apart y n scopes) : Apart y n ([] :: scopes) := ⟨h.replaced, h.once⟩

/-- One more name that is replaced by itself. -/
theorem Apart.keep (h : Apart y n (scope :: outer)) {a : String} (ha : a ≠ y) :
    Apart y n (((a, a) :: scope) :: outer) := by
  refine ⟨?_, ?_⟩
  · intro p hp
    rcases List.mem_cons.1 hp with rfl | hp
    · exact ⟨ha, .inl rfl⟩
    · exact h.replaced p hp
  · have honce := h.once
    simp only [List.flatten_cons, List.cons_append, List.countP_cons, ha, decide_false,
      Bool.false_eq_true, if_false] at honce ⊢
    omega

/-- One more name that is replaced by `y`. -/
theorem Apart.replace (h : Apart y (n + 1) (scope :: outer)) {a : String} (ha : a ≠ y) :
    Apart y n (((a, y) :: scope) :: outer) := by
  refine ⟨?_, ?_⟩
  · intro p hp
    rcases List.mem_cons.1 hp with rfl | hp
    · exact ⟨ha, .inr rfl⟩
    · exact h.replaced p hp
  · have honce := h.once
    simp only [List.flatten_cons, List.cons_append, List.countP_cons, decide_true, if_true] at honce ⊢
    omega

/-- One more declaration. -/
theorem Apart.declare {t : Token} (h : Apart y (site d t + n) (scope :: outer))
    (ht : t.lexeme ≠ y) : Apart y n (((t.lexeme, single d y t) :: scope) :: outer) := by
  by_cases hspan : t.span = d
  · rw [site, if_pos hspan] at h
    rw [single, if_pos hspan]
    exact (h.mono (by omega)).replace ht
  · rw [single, if_neg hspan]
    exact (h.mono (Nat.le_add_left _ _)).keep ht

theorem mem_of_find? {name : String} {a : Address} (h : find? name scopes = some a) :
    (name, a.2) ∈ scopes.flatten := by
  induction scopes generalizing a with
  | nil => simp [find?] at h
  | cons scope outer ih =>
    rw [find?] at h
    rw [List.flatten_cons]
    cases hlookup : scope.lookup name with
    | some name' =>
      rw [hlookup] at h
      obtain rfl : (0, name') = a := by simpa using h
      obtain ⟨before, after, rfl, -⟩ := List.lookup_eq_some_iff.1 hlookup
      simp
    | none =>
      rw [hlookup] at h
      obtain ⟨a', ha', rfl⟩ := Option.map_eq_some_iff.1 h
      exact List.mem_append_right _ (ih (a := a') ha')

/-- Two names that are replaced by the same one are the same. -/
theorem Apart.injective (h : Apart y n scopes) {a a' b : String} (ha : (a, b) ∈ scopes.flatten)
    (ha' : (a', b) ∈ scopes.flatten) : a = a' := by
  -- only one pair has `y`, and in all others both names are the same
  by_cases hb : b = y
  · have hlength : (scopes.flatten.filter fun p => p.2 = y).length ≤ 1 := by
      have honce := h.once
      rw [List.countP_eq_length_filter] at honce
      omega
    have hmem := List.mem_filter (p := fun p => p.2 = y).2 ⟨ha, by simp [hb]⟩
    have hmem' := List.mem_filter (p := fun p => p.2 = y).2 ⟨ha', by simp [hb]⟩
    obtain ⟨p, hp⟩ := List.length_eq_one_iff.1
      (Nat.le_antisymm hlength (List.length_pos_of_mem hmem))
    rw [hp, List.mem_singleton] at hmem hmem'
    exact congrArg Prod.fst (hmem.trans hmem'.symm)
  · have heq := (h.replaced _ ha).2.resolve_right hb
    have heq' := (h.replaced _ ha').2.resolve_right hb
    exact heq.symm.trans heq'

/-- A name that a scope does not declare is not one of its new names either. -/
theorem Apart.not_mem_new (h : Apart y n (scope :: outer)) {a : String} (ha : a ≠ y)
    (hmem : a ∉ scope.map (·.1)) : a ∉ scope.map (·.2) := by
  intro hnew
  obtain ⟨p, hp, rfl⟩ := List.mem_map.1 hnew
  have heq := (h.replaced p (List.mem_append_left _ hp)).2.resolve_right ha
  exact hmem (List.mem_map.2 ⟨p, hp, heq.symm⟩)

/-- As long as `y` is still to come, no scope has it. -/
theorem Apart.fresh (h : Apart y (n + 1) (scope :: outer)) : y ∉ scope.map (·.2) := by
  intro hnew
  obtain ⟨p, hp, hy⟩ := List.mem_map.1 hnew
  have hpos : 0 < (scope :: outer).flatten.countP fun p => p.2 = y :=
    List.countP_pos_iff.2 ⟨p, List.mem_append_left _ hp, by simpa using hy⟩
  have honce := h.once
  omega

/-- The new name of a declaration is not declared yet. -/
theorem Apart.single_not_mem {t : Token} (h : Apart y (site d t + n) (scope :: outer))
    (ht : t.lexeme ≠ y)
    (hmem : t.lexeme ∉ scope.map (·.1)) : single d y t ∉ scope.map (·.2) := by
  by_cases hspan : t.span = d
  · rw [site, if_pos hspan, Nat.add_comm] at h
    rw [single, if_pos hspan]
    exact h.fresh
  · rw [single, if_neg hspan]
    exact h.not_mem_new ht hmem

/-! ### References -/

/-- The new name of a variable leads to the same scope as the old one. -/
theorem Apart.distance?_new (h : Apart y n scopes) {name : String} {a : Address}
    (ha : find? name scopes = some a) : distance? a.2 (new scopes) = some a.1 := by
  induction scopes generalizing a with
  | nil => simp [find?] at ha
  | cons scope outer ih =>
    rw [find?] at ha
    rw [show new (scope :: outer) = scope.map (·.2) :: new outer from rfl, distance?]
    cases hlookup : scope.lookup name with
    | some name' =>
      rw [hlookup] at ha
      obtain rfl : (0, name') = a := by simpa using ha
      obtain ⟨before, after, rfl, -⟩ := List.lookup_eq_some_iff.1 hlookup
      simp
    | none =>
      rw [hlookup] at ha
      obtain ⟨a', ha', rfl⟩ := Option.map_eq_some_iff.1 ha
      have houter : Apart y n outer := by
        refine ⟨fun p hp => h.replaced p (List.mem_append_right _ hp), ?_⟩
        have honce := h.once
        rw [List.flatten_cons, List.countP_append] at honce
        omega
      -- an inner scope with the same new name would declare the name itself
      have hnot : a'.2 ∉ scope.map (·.2) := by
        intro hmem
        obtain ⟨p, hp, hp'⟩ := List.mem_map.1 hmem
        have hfound := List.mem_append_right scope (mem_of_find? ha')
        have hname : p.1 = name := by
          refine h.injective (b := a'.2) ?_ hfound
          rw [← hp']
          exact List.mem_append_left _ hp
        have hsome : (scope.lookup name).isSome :=
          List.lookup_isSome_iff.2 ⟨p, hp, by simp [hname]⟩
        rw [hlookup] at hsome
        cases hsome
      rw [if_neg hnot, ih houter ha']
      rfl

variable {map : ScopeMap}

theorem Apart.access (h : Apart y n scopes) {name : Token}
    (hold : Recorded map (access (old scopes) name)) :
    access (new scopes) (reference scopes name) = access (old scopes) name := by
  obtain ⟨distance, hdistance, -⟩ := recorded_access hold
  have hfound := hdistance
  rw [distance?_old] at hfound
  obtain ⟨a, ha, rfl⟩ := Option.map_eq_some_iff.1 hfound
  have hlexeme : (reference scopes name).lexeme = a.2 := by simp [reference, ha]
  have hspan : (reference scopes name).span = name.span := rfl
  rw [Scope.access, Scope.access, hlexeme, h.distance?_new ha, hdistance, hspan]

/-- The variable that is being initialized, before and after the renaming. -/
def Pending (scopes : List Pairs) (pending pending' : Option String) : Prop :=
  ∀ name a, find? name scopes = some a → pending' = some a.2 → pending = some name

theorem pending_none (scopes : List Pairs) : Pending scopes none none := fun _ _ _ h => nomatch h

theorem Apart.pending {a b : String} (h : Apart y n (((a, b) :: scope) :: outer)) :
    Pending (((a, b) :: scope) :: outer) (some a) (some b) := by
  intro name found hfound heq
  have hname : (name, found.2) ∈ (((a, b) :: scope) :: outer).flatten := mem_of_find? hfound
  rw [← Option.some.inj heq] at hname
  rw [h.injective hname List.mem_cons_self]

mutual

theorem ofExpr_renamed (h : Apart y n scopes) {pending pending' : Option String}
    (hpending : Pending scopes pending pending') :
    ∀ e, Recorded map (ofExpr (old scopes) pending e) →
      ofExpr (new scopes) pending' (expr scopes e) = ofExpr (old scopes) pending e
  | .constant _, _ => rfl
  | .variable name, hold => by
    obtain ⟨hnone, haccess⟩ := recorded_append.1 hold
    obtain ⟨distance, hdistance, -⟩ := recorded_access haccess
    rw [distance?_old] at hdistance
    obtain ⟨a, ha, -⟩ := Option.map_eq_some_iff.1 hdistance
    have hne : pending ≠ some name.lexeme := by
      intro heq
      rw [if_pos heq] at hnone
      exact not_recorded_error _ _ hnone
    have hlexeme : (reference scopes name).lexeme = a.2 := by simp [reference, ha]
    -- had it become a read of the variable that is being initialized, it would have been one before
    have hne' : pending' ≠ some (reference scopes name).lexeme := by
      intro heq
      rw [hlexeme] at heq
      exact hne (hpending name.lexeme a ha heq)
    rw [expr, ofExpr, ofExpr, if_neg hne, if_neg hne', h.access haccess]
  | .group inner, hold => ofExpr_renamed h hpending inner hold
  | .unary _ _ operand, hold => ofExpr_renamed h hpending operand hold
  | .binary _ _ left right, hold => by
    obtain ⟨hleft, hright⟩ := recorded_append.1 hold
    rw [expr, ofExpr, ofExpr, ofExpr_renamed h hpending left hleft,
      ofExpr_renamed h hpending right hright]
  | .logical _ _ left right, hold => by
    obtain ⟨hleft, hright⟩ := recorded_append.1 hold
    rw [expr, ofExpr, ofExpr, ofExpr_renamed h hpending left hleft,
      ofExpr_renamed h hpending right hright]
  | .call callee args _, hold => by
    obtain ⟨hcallee, hargs⟩ := recorded_append.1 hold
    rw [expr, ofExpr, ofExpr, ofExpr_renamed h hpending callee hcallee,
      ofExprs_renamed h hpending args hargs]

theorem ofExprs_renamed (h : Apart y n scopes) {pending pending' : Option String}
    (hpending : Pending scopes pending pending') :
    ∀ es, Recorded map (ofExprs (old scopes) pending es) →
      ofExprs (new scopes) pending' (exprs scopes es) = ofExprs (old scopes) pending es
  | [], _ => rfl
  | e :: es, hold => by
    obtain ⟨he, hes⟩ := recorded_append.1 hold
    rw [exprs, ofExprs, ofExprs, ofExpr_renamed h hpending e he, ofExprs_renamed h hpending es hes]

end

/-! ### Declarations -/

omit n in
theorem declare_of_not_mem {scope : Names} {t : Token} (h : t.lexeme ∉ scope) :
    Scope.declare scope t = (t.lexeme :: scope, Findings.none) := if_neg h

/-- Parameters in order, each with its new name. -/
theorem Apart.declareAll {ps : List Token}
    (h : Apart y (sites d (ps.map (Role.declaration, ·)) + n) (scope :: outer))
    (hps : Avoids y (ps.map (Role.declaration, ·)))
    (hold : Recorded map (Scope.declareAll (scope.map (·.1)) ps).2) :
    (Scope.declareAll (scope.map (·.1)) ps).1 = (declareAll (single d y) scope ps).map (·.1) ∧
      Scope.declareAll (scope.map (·.2)) (ps.map (declaration (single d y))) =
        ((declareAll (single d y) scope ps).map (·.2), (Scope.declareAll (scope.map (·.1)) ps).2) ∧
      Apart y n (declareAll (single d y) scope ps :: outer) := by
  induction ps generalizing scope with
  | nil => exact ⟨rfl, rfl, h.mono (Nat.le_add_left _ _)⟩
  | cons t ps ih =>
    rw [declareAll_cons] at hold
    obtain ⟨hfirst, hmore⟩ := recorded_append.1 hold
    obtain ⟨hmem, hscope⟩ := recorded_declare hfirst
    obtain ⟨ht, hps⟩ := List.forall_mem_cons.1 hps
    rw [List.map_cons, sites_cons, Nat.add_assoc] at h
    have hmem' : (declaration (single d y) t).lexeme ∉ scope.map (·.2) :=
      h.single_not_mem (ht rfl) hmem
    rw [hscope] at hmore
    obtain ⟨hleft, hright, hapart⟩ := ih (h.declare (ht rfl)) hps hmore
    rw [List.map_cons (f := declaration (single d y)), declareAll_cons, declareAll_cons,
      declare_of_not_mem hmem, declare_of_not_mem hmem']
    refine ⟨hleft, ?_, hapart⟩
    exact Prod.ext (congrArg Prod.fst hright) (congrArg (Findings.none ++ ·.2) hright)

/-! ### Statements -/

/-- A statement brings at most its own declarations into scope. -/
theorem Apart.stmt {s : Stmt} (h : Apart y (sites d s.marks + n) (scope :: outer))
    (havoids : Avoids y s.marks) : Apart y n ((stmt (single d y) outer scope s).1 :: outer) := by
  cases s with
  | create name value =>
    rw [Stmt.marks, sites_cons, Nat.add_assoc] at h
    have hname := havoids _ List.mem_cons_self rfl
    exact (h.declare hname).mono (Nat.le_add_left _ _)
  | define name params body =>
    have hname := havoids (.declaration, name) (List.mem_append_left _ List.mem_cons_self) rfl
    exact (h.mono (Nat.le_add_left _ _)).keep hname
  | _ => exact h.mono (Nat.le_add_left _ _)

mutual

theorem ofStmt_renamed {b : Bool} (outer : List Pairs) (scope : Pairs) :
    ∀ s, Apart y (sites d s.marks) (scope :: outer) → Avoids y s.marks →
      Recorded map (ofStmt b (old outer) (scope.map (·.1)) s).2 →
      ofStmt b (new outer) (scope.map (·.2)) (stmt (single d y) outer scope s).2 =
        ((stmt (single d y) outer scope s).1.map (·.2),
          (ofStmt b (old outer) (scope.map (·.1)) s).2)
  | .block body, h, havoids, hold => by
    have hbody := congrArg Prod.snd (ofStmts_renamed (scope :: outer) [] body h.inner havoids hold)
    exact Prod.ext rfl hbody
  | .change target value, h, _, hold => by
    obtain ⟨hvalue, htarget⟩ := recorded_append.1 hold
    exact Prod.ext rfl (congrArg₂ (· ++ ·) (ofExpr_renamed h (pending_none _) value hvalue)
      (h.access htarget))
  | .create name value, h, havoids, hold => by
    rw [ofStmt_create] at hold
    obtain ⟨hname, hvalue⟩ := recorded_append.1 hold
    obtain ⟨hmem, hscope⟩ := recorded_declare hname
    rw [Stmt.marks, sites_cons] at h
    have hne : name.lexeme ≠ y := havoids _ List.mem_cons_self rfl
    have hmem' : (declaration (single d y) name).lexeme ∉ scope.map (·.2) :=
      h.single_not_mem hne hmem
    rw [hscope] at hvalue
    have hinner := h.declare hne
    rw [stmt, ofStmt_create, ofStmt_create, declare_of_not_mem hmem, declare_of_not_mem hmem']
    exact Prod.ext rfl (congrArg (Findings.none ++ ·)
      (ofExpr_renamed hinner hinner.pending value hvalue))
  | .define name params body, h, havoids, hold => by
    rw [ofStmt_define] at hold
    obtain ⟨hhead, hbody⟩ := recorded_append.1 hold
    obtain ⟨hname, hparams⟩ := recorded_append.1 hhead
    obtain ⟨hmem, hscope⟩ := recorded_declare hname
    have hne : name.lexeme ≠ y :=
      havoids (.declaration, name) (List.mem_append_left _ List.mem_cons_self) rfl
    have hmem' : name.lexeme ∉ scope.map (·.2) := h.not_mem_new hne hmem
    have hsub : (params.map (Role.declaration, ·)).Sublist
        ((.declaration, name) :: params.map (Role.declaration, ·)) := List.sublist_cons_self _ _
    -- parameters and body share a scope, so both are still to come in it
    have hinner : Apart y (sites d (params.map (Role.declaration, ·)) + sites d (Stmt.allMarks body))
        ([] :: ((name.lexeme, name.lexeme) :: scope) :: outer) := by
      refine ((h.mono ?_).keep hne).inner
      rw [Stmt.marks, sites_append]
      exact Nat.add_le_add_right hsub.countP_le _
    obtain ⟨hleft, hright, hapart⟩ := hinner.declareAll
      (havoids.part (hsub.trans (List.sublist_append_left _ _))) hparams
    have hbody : Recorded map
        (ofStmts true (old (((name.lexeme, name.lexeme) :: scope) :: outer))
          ((declareAll (single d y) [] params).map (·.1)) body).2 := by
      rw [hscope] at hbody
      rw [← hleft]
      exact hbody
    have hsame := congrArg Prod.snd (ofStmts_renamed _ _ body hapart
      (havoids.part (List.sublist_append_right _ _)) hbody)
    rw [stmt, ofStmt_define, ofStmt_define, declare_of_not_mem hmem, declare_of_not_mem hmem']
    have hleft : (Scope.declareAll [] params).1 = (declareAll (single d y) [] params).map (·.1) :=
      hleft
    have hright : Scope.declareAll [] (params.map (declaration (single d y))) =
        ((declareAll (single d y) [] params).map (·.2), (Scope.declareAll [] params).2) := hright
    rw [hright, hleft]
    exact Prod.ext rfl (congrArg (Findings.none ++ (Scope.declareAll [] params).2 ++ ·) hsame)
  | .expression value, h, _, hold =>
    Prod.ext rfl (ofExpr_renamed h (pending_none _) value hold)
  | .branch t cond body further, h, havoids, hold => by
    obtain ⟨hhead, hfurther⟩ := recorded_append.1 hold
    obtain ⟨hcond, hbody⟩ := recorded_append.1 hhead
    have hsub : (Stmt.allMarks body).Sublist (Stmt.branch t cond body further).marks :=
      (List.sublist_append_right _ _).trans (List.sublist_append_left _ _)
    have hcond := ofExpr_renamed h (pending_none _) cond hcond
    have hbody := congrArg Prod.snd (ofStmts_renamed (scope :: outer) [] body (h.part hsub).inner
      (havoids.part hsub) hbody)
    have hfurther := ofElse_renamed (scope :: outer) further (h.part (List.sublist_append_right _ _))
      (havoids.part (List.sublist_append_right _ _)) hfurther
    exact Prod.ext rfl (congrArg₂ (· ++ ·) (congrArg₂ (· ++ ·) hcond hbody) hfurther)
  | .repeatTimes t count body, h, havoids, hold => by
    obtain ⟨hcount, hbody⟩ := recorded_append.1 hold
    have hcount := ofExpr_renamed h (pending_none _) count hcount
    have hbody := congrArg Prod.snd (ofStmts_renamed (scope :: outer) [] body
      (h.part (List.sublist_append_right _ _)).inner (havoids.part (List.sublist_append_right _ _))
      hbody)
    exact Prod.ext rfl (congrArg₂ (· ++ ·) hcount hbody)
  | .repeatWhile t cond body, h, havoids, hold => by
    obtain ⟨hcond, hbody⟩ := recorded_append.1 hold
    have hcond := ofExpr_renamed h (pending_none _) cond hcond
    have hbody := congrArg Prod.snd (ofStmts_renamed (scope :: outer) [] body
      (h.part (List.sublist_append_right _ _)).inner (havoids.part (List.sublist_append_right _ _))
      hbody)
    exact Prod.ext rfl (congrArg₂ (· ++ ·) hcond hbody)
  | .returnEmpty t, _, _, _ => rfl
  | .returnWith t value, h, _, hold => by
    obtain ⟨-, hvalue⟩ := recorded_append.1 hold
    have hvalue := ofExpr_renamed h (pending_none _) value hvalue
    exact Prod.ext rfl (congrArg (checkReturn b t ++ ·) hvalue)

theorem ofStmts_renamed {b : Bool} (outer : List Pairs) (scope : Pairs) :
    ∀ ss, Apart y (sites d (Stmt.allMarks ss)) (scope :: outer) → Avoids y (Stmt.allMarks ss) →
      Recorded map (ofStmts b (old outer) (scope.map (·.1)) ss).2 →
      ofStmts b (new outer) (scope.map (·.2)) (stmts (single d y) outer scope ss).2 =
        ((stmts (single d y) outer scope ss).1.map (·.2),
          (ofStmts b (old outer) (scope.map (·.1)) ss).2)
  | [], _, _, _ => rfl
  | s :: ss, h, havoids, hold => by
    obtain ⟨hs, hss⟩ := recorded_append.1 hold
    have hfirst := ofStmt_renamed outer scope s (h.part (List.sublist_append_left _ _))
      (havoids.part (List.sublist_append_left _ _)) hs
    -- what the first statement declares is in scope for the others, and is no longer to come
    have hnext : Apart y (sites d (Stmt.allMarks ss))
        ((stmt (single d y) outer scope s).1 :: outer) := by
      rw [Stmt.allMarks, sites_append] at h
      exact h.stmt (havoids.part (List.sublist_append_left _ _))
    have hscope : (ofStmt b (old outer) (scope.map (·.1)) s).1 =
        (stmt (single d y) outer scope s).1.map (·.1) := scope_stmt outer hs
    rw [hscope] at hss
    have hmore := ofStmts_renamed outer _ ss hnext (havoids.part (List.sublist_append_right _ _)) hss
    show ofStmts b (new outer) (scope.map (·.2)) (_ :: _) = _
    rw [ofStmts_cons, ofStmts_cons, hfirst, hscope]
    have hfst := congrArg Prod.fst hmore
    have hsnd := congrArg Prod.snd hmore
    exact Prod.ext hfst (congrArg ((ofStmt b (old outer) (scope.map (·.1)) s).2 ++ ·) hsnd)

theorem ofElse_renamed {b : Bool} (scopes : List Pairs) :
    ∀ r, Apart y (sites d r.marks) scopes → Avoids y r.marks →
      Recorded map (ofElse b (old scopes) r) →
      ofElse b (new scopes) (rest (single d y) scopes r) = ofElse b (old scopes) r
  | .nothing, _, _, _ => rfl
  | .block body, h, havoids, hold => by
    have hbody := congrArg Prod.snd (ofStmts_renamed scopes [] body h.inner havoids hold)
    exact hbody
  | .branch t cond body further, h, havoids, hold => by
    obtain ⟨hhead, hfurther⟩ := recorded_append.1 hold
    obtain ⟨hcond, hbody⟩ := recorded_append.1 hhead
    have hsub : (Stmt.allMarks body).Sublist (Else.branch t cond body further).marks :=
      (List.sublist_append_right _ _).trans (List.sublist_append_left _ _)
    have hcond := ofExpr_renamed h (pending_none _) cond hcond
    have hbody := congrArg Prod.snd (ofStmts_renamed scopes [] body (h.part hsub).inner
      (havoids.part hsub) hbody)
    have hfurther := ofElse_renamed scopes further (h.part (List.sublist_append_right _ _))
      (havoids.part (List.sublist_append_right _ _)) hfurther
    exact congrArg₂ (· ++ ·) (congrArg₂ (· ++ ·) hcond hbody) hfurther

end

end

/-! ### Programs -/

/-- Where names are told apart, a span is one of one declaration at most. -/
theorem sites_le_one {ss : List Stmt} (h : ToldApart ss) (d : Span) :
    sites d (Stmt.allMarks ss) ≤ 1 := by
  have hcount := List.nodup_iff_count_le_one.1 h d
  rw [names, List.map_map, List.count_eq_countP, List.countP_map, List.countP_filter] at hcount
  refine Nat.le_trans (List.countP_mono_left fun m _ hm => ?_) hcount
  obtain ⟨hrole, hspan⟩ := of_decide_eq_true hm
  simp [hrole, hspan]

/-- Global variables are replaced by themselves. -/
theorem apart_globals {y : String} {globals : Names} (hy : y ∉ globals) {n : Nat} (hn : n ≤ 1) :
    Apart y n [globals.map fun n => (n, n)] := by
  refine ⟨?_, ?_⟩
  · intro p hp
    obtain ⟨a, ha, rfl⟩ : ∃ a ∈ globals, (a, a) = p := by simpa using hp
    exact ⟨fun heq => hy (heq ▸ ha), .inl rfl⟩
  · have hzero : ([globals.map fun n => (n, n)].flatten.countP fun p => p.2 = y) = 0 := by
      refine List.countP_eq_zero.2 fun p hp => ?_
      obtain ⟨a, ha, rfl⟩ : ∃ a ∈ globals, (a, a) = p := by simpa using hp
      have hne : a ≠ y := fun heq => hy (heq ▸ ha)
      simpa using hne
    omega

variable {globals : Names} {ss : List Stmt} {d : Span} {y : String}

/-- The analysis of scopes finds the same in the renamed program. -/
theorem resolve_program (hprogram : ToldApart ss) (haccepted : (resolve globals ss).errors = [])
    (hy : ∀ t ∈ names (Stmt.allMarks ss), t.lexeme ≠ y) (hglobals : y ∉ globals) :
    resolve globals (program d y globals ss) = resolve globals ss := by
  have hrecorded := recorded_resolve hprogram haccepted
  have havoids : Avoids y (Stmt.allMarks ss) := by
    intro m hm hrole
    refine hy m.2 (List.mem_map_of_mem (f := Prod.snd) (List.mem_filter.2 ⟨hm, ?_⟩))
    simp [hrole]
  have hsame := ofStmts_renamed (b := false) [] (globals.map fun n => (n, n)) ss
    (apart_globals hglobals (sites_le_one hprogram d)) havoids
    (by simpa [resolve, Function.comp_def, old] using hrecorded)
  have hsnd := congrArg Prod.snd hsame
  simpa [resolve, program, Function.comp_def, old, new] using hsnd

end Renaming

/-! ### Execution -/

/-- A run next to one with other names. -/
def Lockstep.anyNames : Pairing := { identity with names := fun _ _ => True }

theorem Lockstep.identity_within_anyNames : identity.Within anyNames where
  site h := h
  names _ := trivial
  frames h := h
  sink h := h
  ahead := rfl

namespace Session

open Lockstep

/-- Programs that do the same write the same and end the same. -/
theorem execute_alike {s : Session} (hs : s.store.Steady) (setting : Setting) {map : ScopeMap}
    {file : Nat} {ss ss' : List Stmt} {V : View}
    (h : Alike anyNames ⟨map, file⟩ ⟨map, file⟩ false (globalView s.globals) (.stmts ss) (.stmts ss')
      V) :
    (s.execute setting ⟨ss', map⟩ file).2 = (s.execute setting ⟨ss, map⟩ file).2 := by
  obtain ⟨hsize, W, hstore⟩ := hs
  have hready := (ready_machine setting hsize hstore map file).allow identity_within_anyNames
  -- no fault is about a name, and all others are reported at tokens that are not renamed
  exact execute_eq id id (program_alike setting.fuel hready h)

end Session

namespace Renaming

open Scope Lockstep

/-- An accepted program does the same as the renamed one. -/
theorem alike_program {globals : Names} {ss : List Stmt} {d : Span} {y : String} {map : ScopeMap}
    (hold : Recorded map (resolve globals ss))
    (hnew : Recorded map (resolve globals (program d y globals ss))) (file : Nat) :
    ∃ V, Alike anyNames ⟨map, file⟩ ⟨map, file⟩ false (Session.globalView globals) (.stmts ss)
      (.stmts (program d y globals ss)) V := by
  refine ⟨_, alike_stmts (P := anyNames) (b := false) (fun _ => ⟨rfl, rfl⟩) (fun _ => trivial)
    (fun _ => trivial) [] (globals.map fun n => (n, n)) ss ?_ ?_⟩
  · simpa [resolve, Function.comp_def, old] using hold
  · simpa [resolve, program, Function.comp_def, new] using hnew

/-- A variable may be renamed to any name that occurs neither in the program nor among the global
variables: the program is still accepted, its references keep their distances, and in whatever
session it runs, it writes the same and ends the same, faults included. The names of a program that
was read from a text are always told apart. -/
theorem alpha_invariance {globals : Names} {ss : List Stmt} (hprogram : ToldApart ss)
    (haccepted : (resolve globals ss).errors = []) (d : Span) {y : String}
    (hy : ∀ t ∈ names (Stmt.allMarks ss), t.lexeme ≠ y) (hglobals : y ∉ globals) :
    (resolve globals (program d y globals ss)).errors = [] ∧
      ScopeMap.ofReferences (resolve globals (program d y globals ss)).references =
        ScopeMap.ofReferences (resolve globals ss).references ∧
      ∀ runs : List (Setting × List Char), (Session.after runs).globals = globals →
        ∀ setting file,
          ((Session.after runs).execute setting
            ⟨program d y globals ss,
              ScopeMap.ofReferences (resolve globals (program d y globals ss)).references⟩ file).2 =
          ((Session.after runs).execute setting
            ⟨ss, ScopeMap.ofReferences (resolve globals ss).references⟩ file).2 := by
  have hresolve := resolve_program (d := d) hprogram haccepted hy hglobals
  have hold := recorded_resolve hprogram haccepted
  refine ⟨by rw [hresolve, haccepted], by rw [hresolve], ?_⟩
  rintro runs rfl setting file
  rw [hresolve]
  obtain ⟨V, halike⟩ := alike_program hold (by rwa [hresolve]) file
  exact Session.execute_alike (Session.steady_after runs) setting halike

/-- A parameter that is changed and returned, in a function that is called. -/
theorem alpha_invariance_parameter :
    let token (kind : Kind) (lexeme : String) (start : Nat) : Token :=
      { kind := kind, lexeme := lexeme, line := 1, span := ⟨start, start + 1⟩ }
    let x (start : Nat) : Token := token .identifier "x" start
    let ss : List Stmt :=
      [.define (token .identifier "f" 0) [x 1]
        [.change (x 2) (.variable (x 3)),
          .returnWith (token .returnWord "return" 4) (.variable (x 5))],
        .expression (.call (.variable (token .identifier "f" 6)) [.constant .empty]
          (token .rightParen ")" 7))]
    let globals := Session.initial.globals
    ToldApart ss ∧ (resolve globals ss).errors = [] ∧
      (resolve globals (program ⟨1, 2⟩ "y" globals ss)).errors = [] ∧
      ∀ setting file,
        (Session.initial.execute setting
          ⟨program ⟨1, 2⟩ "y" globals ss,
            ScopeMap.ofReferences (resolve globals (program ⟨1, 2⟩ "y" globals ss)).references⟩
          file).2 =
        (Session.initial.execute setting
          ⟨ss, ScopeMap.ofReferences (resolve globals ss).references⟩ file).2 := by
  intro token x ss globals
  have hprogram : ToldApart ss := by decide
  have haccepted : (resolve globals ss).errors = [] := by decide
  have h := alpha_invariance hprogram haccepted ⟨1, 2⟩ (y := "y") (by decide) (by decide)
  exact ⟨hprogram, haccepted, h.1, h.2.2 [] rfl⟩

/-- References that share a span share a distance, the one recorded last. So a reference to the
variable of a block finds the global variable of the same name, as long as the names are the same:
where the variable of the block is renamed, the reference finds nothing. -/
theorem renamed_reference_misses :
    let token (kind : Kind) (lexeme : String) (start : Nat) : Token :=
      { kind := kind, lexeme := lexeme, line := 1, span := ⟨start, start + 1⟩ }
    let x (start : Nat) : Token := token .identifier "x" start
    let ss : List Stmt :=
      [.create (x 1) (.constant (.text "2")),
        .block
          [.create (x 2) (.constant (.text "3")),
            .expression (.variable (x 50)),
            .block [.expression (.variable (x 50))]]]
    let globals := Session.initial.globals
    let renamed := program ⟨2, 3⟩ "y" globals ss
    let setting : Setting := ⟨9, fun _ => Number.ofDecimalText ['0'], none⟩
    let ending (ss : List Stmt) : Ending :=
      (Session.initial.execute setting
        ⟨ss, ScopeMap.ofReferences (resolve globals ss).references⟩ 0).2.ending
    (resolve globals ss).errors = [] ∧ (∀ t ∈ names (Stmt.allMarks ss), t.lexeme ≠ "y") ∧
      "y" ∉ globals ∧ (resolve globals renamed).errors = [] ∧ ending ss = .success ∧
      ending renamed =
        .failure [⟨.runtime (.notDefined "y"), 1, .lexeme "y", ⟨50, 51⟩, some 0⟩] := by
  exact ⟨by decide, by decide, by decide, by decide, by cbv, by cbv⟩

end Renaming

end Offside
