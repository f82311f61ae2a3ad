import Offside.Proofs.Lockstep.Relation
import Offside.Proofs.References

/-!
# Code in two nests of scopes

The scopes around code decide at what distances its references find their variables. Code that the
analysis accepts in two nests of scopes, with the distances for each on record, does the same in
both, as long as what a name refers to in the one corresponds to what it refers to in the other.

* `Lockstep.Connects`: links between what names refer to in two nests of scopes;
* `Lockstep.Overlooks`: views from two nests of scopes;
* `Lockstep.alike_stmts`: statements accepted in both do the same.
-/

namespace Offside

namespace Scope

theorem distance?_declared {n m : String} (hne : n ≠ m) (scope : Names) (outer : List Names) :
    distance? n ((m :: scope) :: outer) = distance? n (scope :: outer) := by
  simp [distance?, hne]

theorem distance?_self (n : String) (scope : Names) (outer : List Names) :
    distance? n ((n :: scope) :: outer) = some 0 := by
  simp [distance?]

theorem distance?_singleton {n : String} {scope : Names} {d : Nat}
    (h : distance? n [scope] = some d) : n ∈ scope ∧ d = 0 := by
  rw [distance?] at h
  split at h
  · rename_i hn
    exact ⟨hn, (Option.some.inj h).symm⟩
  · cases h

end Scope

namespace Lockstep

open Scope

/-! ### Views from two nests of scopes -/

/-- A view has a link for each name that refers to something in both nests of scopes, apart from the
variable that is being initialized. -/
def Connects (V : View) (scopes scopes' : List Names) (pending : Option String) : Prop :=
  ∀ n d d', pending ≠ some n → distance? n scopes = some d → distance? n scopes' = some d' →
    ((d, n), (d', n)) ∈ V.links

/-- A view from two nests of scopes, which has the names of the current ones as its own. -/
structure Overlooks (V : View) (outer : List Names) (scope : Names) (outer' : List Names)
    (scope' : Names) : Prop where
  left : V.left = scope
  right : V.right = scope'
  connects : Connects V (scope :: outer) (scope' :: outer') none

namespace Overlooks

variable {V : View} {outer outer' : List Names} {scope scope' : Names}
  (h : Overlooks V outer scope outer' scope')
include h

/-- An initializer sees what was there before its variable. -/
theorem initializer (n : String) :
    Connects V ((n :: scope) :: outer) ((n :: scope') :: outer') (some n) := by
  intro m d d' hpending hd hd'
  have hne : m ≠ n := fun heq => hpending (by rw [heq])
  rw [distance?_declared hne] at hd hd'
  exact h.connects m d d' (by simp) hd hd'

theorem bind (n : String) :
    Overlooks (V.bind n n) outer (n :: scope) outer' (n :: scope') := by
  refine ⟨congrArg (n :: ·) h.left, congrArg (n :: ·) h.right, ?_⟩
  intro m d d' _ hd hd'
  by_cases hm : m = n
  · subst hm
    rw [distance?_self] at hd hd'
    cases hd
    cases hd'
    exact List.mem_cons_self
  · refine List.mem_cons_of_mem _ (h.initializer n m d d' ?_ hd hd')
    exact fun heq => hm (Option.some.inj heq).symm

theorem inner : Overlooks V.inner (scope :: outer) [] (scope' :: outer') [] := by
  refine ⟨rfl, rfl, ?_⟩
  intro m d d' _ hd hd'
  rw [distance?, if_neg List.not_mem_nil] at hd hd'
  obtain ⟨k, hk, rfl⟩ := Option.map_eq_some_iff.1 hd
  obtain ⟨k', hk', rfl⟩ := Option.map_eq_some_iff.1 hd'
  exact List.mem_map.2 ⟨_, h.connects m k k' (by simp) hk hk', rfl⟩

end Overlooks

/-! ### Code that is accepted twice -/

section

variable {P : Pairing} {o o' : Origin} {V : View} {outer outer' : List Names}
  {scope scope' : Names}

theorem refers_self {scopes scopes' : List Names} {pending : Option String}
    (hconnects : Connects V scopes scopes' pending) {name : Token}
    (hpending : pending ≠ some name.lexeme) (h : Recorded o.scope (access scopes name))
    (h' : Recorded o'.scope (access scopes' name)) : Refers o o' V name name := by
  obtain ⟨d, hd, hmap⟩ := recorded_access h
  obtain ⟨d', hd', hmap'⟩ := recorded_access h'
  exact ⟨d, d', hmap, hmap', hconnects name.lexeme d d' hpending hd hd'⟩

/-- Parameters are declared in order, in both nests. -/
theorem alike_params (hnames : ∀ n, P.names n n) {map map' : ScopeMap} {ps : List Token}
    (hV : Overlooks V outer scope outer' scope') (h : Recorded map (declareAll scope ps).2)
    (h' : Recorded map' (declareAll scope' ps).2) :
    ∃ V₁, ParamsAlike P V (ps.map (·.lexeme)) (ps.map (·.lexeme)) V₁ ∧
      Overlooks V₁ outer (declareAll scope ps).1 outer' (declareAll scope' ps).1 := by
  induction ps generalizing V scope scope' with
  | nil => exact ⟨V, .nil V, hV⟩
  | cons t ps ih =>
    rw [declareAll_cons] at h h' ⊢
    rw [declareAll_cons]
    obtain ⟨hname, hrest⟩ := recorded_append.1 h
    obtain ⟨hname', hrest'⟩ := recorded_append.1 h'
    obtain ⟨hmem, hscope⟩ := recorded_declare hname
    obtain ⟨hmem', hscope'⟩ := recorded_declare hname'
    rw [hscope] at hrest ⊢
    rw [hscope'] at hrest' ⊢
    obtain ⟨V₁, hps, hV₁⟩ := ih (hV.bind t.lexeme) hrest hrest'
    exact ⟨V₁, .cons (hV.left ▸ hmem) (hV.right ▸ hmem') (hnames t.lexeme) hps, hV₁⟩

mutual

theorem alike_expr (hsite : ∀ t, P.site o.file o'.file t t) {b : Bool}
    {scopes scopes' : List Names} {pending : Option String}
    (hV : Connects V scopes scopes' pending) : ∀ e,
    Recorded o.scope (ofExpr scopes pending e) → Recorded o'.scope (ofExpr scopes' pending e) →
    Alike P o o' b V (.expr e) (.expr e) V
  | .constant value, _, _ => .constant value
  | .variable name, h, h' => by
    obtain ⟨hpending, haccess⟩ := recorded_append.1 h
    refine .variable (refers_self hV ?_ haccess (recorded_append.1 h').2)
    split at hpending
    · exact absurd hpending (not_recorded_error _ _)
    · assumption
  | .group inner, h, h' => .group (alike_expr hsite hV inner h h')
  | .unary op t operand, h, h' => .unary op (hsite t) (alike_expr hsite hV operand h h')
  | .binary op t left right, h, h' =>
    have h := recorded_append.1 h
    have h' := recorded_append.1 h'
    .binary op (hsite t) (alike_expr hsite hV left h.1 h'.1) (alike_expr hsite hV right h.2 h'.2)
  | .logical op t left right, h, h' =>
    have h := recorded_append.1 h
    have h' := recorded_append.1 h'
    .logical op (hsite t) (alike_expr hsite hV left h.1 h'.1) (alike_expr hsite hV right h.2 h'.2)
  | .call callee args t, h, h' =>
    have h := recorded_append.1 h
    have h' := recorded_append.1 h'
    .call (hsite t) (alike_expr hsite hV callee h.1 h'.1) (alike_exprs hsite hV args h.2 h'.2)

theorem alike_exprs (hsite : ∀ t, P.site o.file o'.file t t) {b : Bool}
    {scopes scopes' : List Names} {pending : Option String}
    (hV : Connects V scopes scopes' pending) : ∀ es,
    Recorded o.scope (ofExprs scopes pending es) → Recorded o'.scope (ofExprs scopes' pending es) →
    Alike P o o' b V (.exprs es) (.exprs es) V
  | [], _, _ => .noExprs
  | e :: es, h, h' =>
    have h := recorded_append.1 h
    have h' := recorded_append.1 h'
    .moreExprs (alike_expr hsite hV e h.1 h'.1) (alike_exprs hsite hV es h.2 h'.2)

end

mutual

theorem alike_stmt (hsite : ∀ t, P.site o.file o'.file t t) (hnames : ∀ n, P.names n n) {b : Bool}
    {V : View} {outer outer' : List Names} {scope scope' : Names}
    (hV : Overlooks V outer scope outer' scope') : ∀ s,
    Recorded o.scope (ofStmt b outer scope s).2 → Recorded o'.scope (ofStmt b outer' scope' s).2 →
    ∃ V₁, Alike P o o' b V (.stmt s) (.stmt s) V₁ ∧
      Overlooks V₁ outer (ofStmt b outer scope s).1 outer' (ofStmt b outer' scope' s).1
  | .block body, h, h' => by
    obtain ⟨V₁, hbody, -⟩ := alike_stmts hsite hnames hV.inner body h h'
    exact ⟨V, .block hbody, hV⟩
  | .change target value, h, h' => by
    obtain ⟨hvalue, htarget⟩ := recorded_append.1 h
    obtain ⟨hvalue', htarget'⟩ := recorded_append.1 h'
    have hrefers := refers_self hV.connects (by simp) htarget htarget'
    exact ⟨V, .change hrefers (alike_expr hsite hV.connects value hvalue hvalue'), hV⟩
  | .create name value, h, h' => by
    rw [ofStmt_create] at h h' ⊢
    rw [ofStmt_create]
    obtain ⟨hname, hvalue⟩ := recorded_append.1 h
    obtain ⟨hname', hvalue'⟩ := recorded_append.1 h'
    obtain ⟨hmem, hscope⟩ := recorded_declare hname
    obtain ⟨hmem', hscope'⟩ := recorded_declare hname'
    rw [hscope] at hvalue ⊢
    rw [hscope'] at hvalue' ⊢
    have halike := alike_expr hsite (b := b) (hV.initializer name.lexeme) value hvalue hvalue'
    exact ⟨V.bind name.lexeme name.lexeme,
      .create (hV.left ▸ hmem) (hV.right ▸ hmem') (hnames _) halike, hV.bind name.lexeme⟩
  | .define name params body, h, h' => by
    rw [ofStmt_define] at h h' ⊢
    rw [ofStmt_define]
    obtain ⟨hhead, hbody⟩ := recorded_append.1 h
    obtain ⟨hname, hparams⟩ := recorded_append.1 hhead
    obtain ⟨hhead', hbody'⟩ := recorded_append.1 h'
    obtain ⟨hname', hparams'⟩ := recorded_append.1 hhead'
    obtain ⟨hmem, hscope⟩ := recorded_declare hname
    obtain ⟨hmem', hscope'⟩ := recorded_declare hname'
    rw [hscope] at hbody ⊢
    rw [hscope'] at hbody' ⊢
    have hbind := hV.bind name.lexeme
    obtain ⟨V₁, hparams, hV₁⟩ := alike_params hnames hbind.inner hparams hparams'
    obtain ⟨V₂, hbody, -⟩ := alike_stmts hsite hnames hV₁ body hbody hbody'
    exact ⟨V.bind name.lexeme name.lexeme,
      .define (hV.left ▸ hmem) (hV.right ▸ hmem') (hnames _) rfl hparams hbody, hbind⟩
  | .expression value, h, h' => ⟨V, .expression (alike_expr hsite hV.connects value h h'), hV⟩
  | .branch t cond body further, h, h' => by
    obtain ⟨hhead, hfurther⟩ := recorded_append.1 h
    obtain ⟨hcond, hbody⟩ := recorded_append.1 hhead
    obtain ⟨hhead', hfurther'⟩ := recorded_append.1 h'
    obtain ⟨hcond', hbody'⟩ := recorded_append.1 hhead'
    obtain ⟨V₁, hbody, -⟩ := alike_stmts hsite hnames hV.inner body hbody hbody'
    have hcond := alike_expr hsite (b := b) hV.connects cond hcond hcond'
    have hrest := alike_rest hsite hnames hV further hfurther hfurther'
    exact ⟨V, .branch (hsite t) hcond hbody hrest, hV⟩
  | .repeatTimes t count body, h, h' => by
    obtain ⟨hcount, hbody⟩ := recorded_append.1 h
    obtain ⟨hcount', hbody'⟩ := recorded_append.1 h'
    obtain ⟨V₁, hbody, -⟩ := alike_stmts hsite hnames hV.inner body hbody hbody'
    have hcount := alike_expr hsite (b := b) hV.connects count hcount hcount'
    exact ⟨V, .repeatTimes (hsite t) hcount hbody, hV⟩
  | .repeatWhile t cond body, h, h' => by
    obtain ⟨hcond, hbody⟩ := recorded_append.1 h
    obtain ⟨hcond', hbody'⟩ := recorded_append.1 h'
    obtain ⟨V₁, hbody, -⟩ := alike_stmts hsite hnames hV.inner body hbody hbody'
    have hcond := alike_expr hsite (b := b) hV.connects cond hcond hcond'
    exact ⟨V, .repeatWhile (hsite t) hcond hbody, hV⟩
  | .returnEmpty t, h, _ => by
    obtain rfl := recorded_checkReturn h
    exact ⟨V, .returnEmpty, hV⟩
  | .returnWith t value, h, h' => by
    obtain ⟨hreturn, hvalue⟩ := recorded_append.1 h
    obtain rfl := recorded_checkReturn hreturn
    have hvalue' := (recorded_append.1 h').2
    exact ⟨V, .returnWith (alike_expr hsite hV.connects value hvalue hvalue'), hV⟩

/-- Statements that are accepted in two nests of scopes do the same in both. -/
theorem alike_stmts (hsite : ∀ t, P.site o.file o'.file t t) (hnames : ∀ n, P.names n n) {b : Bool}
    {V : View} {outer outer' : List Names} {scope scope' : Names}
    (hV : Overlooks V outer scope outer' scope') : ∀ ss,
    Recorded o.scope (ofStmts b outer scope ss).2 →
    Recorded o'.scope (ofStmts b outer' scope' ss).2 →
    ∃ V₁, Alike P o o' b V (.stmts ss) (.stmts ss) V₁ ∧
      Overlooks V₁ outer (ofStmts b outer scope ss).1 outer' (ofStmts b outer' scope' ss).1
  | [], _, _ => ⟨V, .noStmts, hV⟩
  | s :: ss, h, h' => by
    rw [ofStmts_cons] at h h' ⊢
    rw [ofStmts_cons]
    obtain ⟨hs, hss⟩ := recorded_append.1 h
    obtain ⟨hs', hss'⟩ := recorded_append.1 h'
    obtain ⟨V₁, hs, hV₁⟩ := alike_stmt hsite hnames hV s hs hs'
    obtain ⟨V₂, hss, hV₂⟩ := alike_stmts hsite hnames hV₁ ss hss hss'
    exact ⟨V₂, .moreStmts hs hss, hV₂⟩

theorem alike_rest (hsite : ∀ t, P.site o.file o'.file t t) (hnames : ∀ n, P.names n n) {b : Bool}
    {V : View} {outer outer' : List Names} {scope scope' : Names}
    (hV : Overlooks V outer scope outer' scope') : ∀ r,
    Recorded o.scope (ofElse b (scope :: outer) r) →
    Recorded o'.scope (ofElse b (scope' :: outer') r) →
    Alike P o o' b V (.rest r) (.rest r) V
  | .nothing, _, _ => .nothing
  | .block body, h, h' => by
    obtain ⟨V₁, hbody, -⟩ := alike_stmts hsite hnames hV.inner body h h'
    exact .otherwise hbody
  | .branch t cond body further, h, h' => by
    obtain ⟨hhead, hfurther⟩ := recorded_append.1 h
    obtain ⟨hcond, hbody⟩ := recorded_append.1 hhead
    obtain ⟨hhead', hfurther'⟩ := recorded_append.1 h'
    obtain ⟨hcond', hbody'⟩ := recorded_append.1 hhead'
    obtain ⟨V₁, hbody, -⟩ := alike_stmts hsite hnames hV.inner body hbody hbody'
    have hcond := alike_expr hsite (b := b) hV.connects cond hcond hcond'
    exact .otherwiseIf (hsite t) hcond hbody (alike_rest hsite hnames hV further hfurther hfurther')

end

/-- So do statements on record in two maps of distances. -/
theorem alike_of_recorded {map map' : ScopeMap} {file file' : Nat}
    (hsite : ∀ t, P.site file file' t t) (hnames : ∀ n, P.names n n) {b : Bool}
    (hV : Overlooks V outer scope outer' scope') {ss : List Stmt}
    (h : Recorded map (ofStmts b outer scope ss).2)
    (h' : Recorded map' (ofStmts b outer' scope' ss).2) :
    ∃ V₁, Alike P ⟨map, file⟩ ⟨map', file'⟩ b V (.stmts ss) (.stmts ss) V₁ := by
  have halike : ∃ V₁, Alike P ⟨map, file⟩ ⟨map', file'⟩ b V (.stmts ss) (.stmts ss) V₁ ∧
      Overlooks V₁ outer (ofStmts b outer scope ss).1 outer' (ofStmts b outer' scope' ss).1 :=
    alike_stmts hsite hnames hV ss h h'
  exact halike.imp fun _ => And.left

end

end Lockstep

end Offside
