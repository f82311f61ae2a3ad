import Mathlib
import Offside.Proofs.Relocation

/-!
# What follows a return

A return leaves every block and every loop that it stands in, up to the call, so no statement after
it in a list of statements ever runs. Such statements can be deleted, in some lists or in all: the
analysis of scopes accepts what is left, and a run of it cannot be told from a run of the program,
nor can the runs of later texts, although the functions that the two leave behind have different
bodies.

* `Stmt.prunedAll`: statements with all of it deleted;
* `Prunes`: code with some of it deleted;
* `Prunes.recorded`: what is left is accepted;
* `Prunes.alike`: code does what is left of it;
* `Session.unreachable_after_return`: programs with it deleted.
-/

namespace Offside

open Lockstep Scope

/-! ### Deletion -/

mutual

/-- A statement with what follows a return deleted from every list of statements in it. -/
def Stmt.pruned : Stmt → Stmt
  | .block body => .block (Stmt.prunedAll body)
  | .define name params body => .define name params (Stmt.prunedAll body)
  | .branch token cond body rest => .branch token cond (Stmt.prunedAll body) rest.pruned
  | .repeatTimes token count body => .repeatTimes token count (Stmt.prunedAll body)
  | .repeatWhile token cond body => .repeatWhile token cond (Stmt.prunedAll body)
  | s => s

/-- Statements up to the first return among them, and every one with the same done inside it. -/
def Stmt.prunedAll : List Stmt → List Stmt
  | [] => []
  | s :: ss => if s.isReturn then [s] else s.pruned :: Stmt.prunedAll ss

/-- The further branches of a conditional with what follows a return deleted from them. -/
def Else.pruned : Else → Else
  | .nothing => .nothing
  | .block body => .block (Stmt.prunedAll body)
  | .branch token cond body rest => .branch token cond (Stmt.prunedAll body) rest.pruned

end

/-- Code, and the same code where in any of the lists of statements in it all that follows a return
has been deleted. -/
inductive Prunes : Code → Code → Prop
  | keep (c : Code) : Prunes c c
  | cut {s : Stmt} (ss : List Stmt) : s.isReturn = true → Prunes (.stmts (s :: ss)) (.stmts [s])
  | cons {s s' : Stmt} {ss ss' : List Stmt} : Prunes (.stmt s) (.stmt s') →
    Prunes (.stmts ss) (.stmts ss') → Prunes (.stmts (s :: ss)) (.stmts (s' :: ss'))
  | block {ss ss' : List Stmt} : Prunes (.stmts ss) (.stmts ss') →
    Prunes (.stmt (.block ss)) (.stmt (.block ss'))
  | define {name : Token} {params : List Token} {ss ss' : List Stmt} :
    Prunes (.stmts ss) (.stmts ss') →
    Prunes (.stmt (.define name params ss)) (.stmt (.define name params ss'))
  | branch {t : Token} {e : Expr} {ss ss' : List Stmt} {r r' : Else} :
    Prunes (.stmts ss) (.stmts ss') → Prunes (.rest r) (.rest r') →
    Prunes (.stmt (.branch t e ss r)) (.stmt (.branch t e ss' r'))
  | repeatTimes {t : Token} {e : Expr} {ss ss' : List Stmt} : Prunes (.stmts ss) (.stmts ss') →
    Prunes (.stmt (.repeatTimes t e ss)) (.stmt (.repeatTimes t e ss'))
  | repeatWhile {t : Token} {e : Expr} {ss ss' : List Stmt} : Prunes (.stmts ss) (.stmts ss') →
    Prunes (.stmt (.repeatWhile t e ss)) (.stmt (.repeatWhile t e ss'))
  | otherwise {ss ss' : List Stmt} : Prunes (.stmts ss) (.stmts ss') →
    Prunes (.rest (.block ss)) (.rest (.block ss'))
  | otherwiseIf {t : Token} {e : Expr} {ss ss' : List Stmt} {r r' : Else} :
    Prunes (.stmts ss) (.stmts ss') → Prunes (.rest r) (.rest r') →
    Prunes (.rest (.branch t e ss r)) (.rest (.branch t e ss' r'))

/-- What the analysis of scopes finds about code. -/
def Lockstep.Code.found (b : Bool) (outer : List Names) (scope : Names) : Code → Findings
  | .expr e => ofExpr (scope :: outer) .none e
  | .exprs es => ofExprs (scope :: outer) .none es
  | .stmt s => (ofStmt b outer scope s).2
  | .stmts ss => (ofStmts b outer scope ss).2
  | .rest r => ofElse b (scope :: outer) r

namespace Prunes

mutual

theorem pruned : ∀ s : Stmt, Prunes (.stmt s) (.stmt s.pruned)
  | .block body => .block (prunedAll body)
  | .change _ _ => .keep _
  | .create _ _ => .keep _
  | .define _ _ body => .define (prunedAll body)
  | .expression _ => .keep _
  | .branch _ _ body rest => .branch (prunedAll body) (prunedElse rest)
  | .repeatTimes _ _ body => .repeatTimes (prunedAll body)
  | .repeatWhile _ _ body => .repeatWhile (prunedAll body)
  | .returnEmpty _ => .keep _
  | .returnWith _ _ => .keep _

/-- All of it may be deleted. -/
theorem prunedAll : ∀ ss : List Stmt, Prunes (.stmts ss) (.stmts (Stmt.prunedAll ss))
  | [] => .keep _
  | s :: ss => by
    rw [Stmt.prunedAll]
    split
    · exact .cut ss ‹_›
    · exact .cons (pruned s) (prunedAll ss)

theorem prunedElse : ∀ r : Else, Prunes (.rest r) (.rest r.pruned)
  | .nothing => .keep _
  | .block body => .otherwise (prunedAll body)
  | .branch _ _ body rest => .otherwiseIf (prunedAll body) (prunedElse rest)

end

theorem isReturn_eq {s s' : Stmt} (h : Prunes (.stmt s) (.stmt s')) : s'.isReturn = s.isReturn := by
  cases h <;> rfl

/-! ### Acceptance -/

/-- The tokens that are left are in the order they were in. -/
theorem marks_sublist {c c' : Code} (h : Prunes c c') : c'.marks.Sublist c.marks := by
  induction h with
  | keep c => exact .refl _
  | cut ss _ => exact (List.nil_sublist (Stmt.allMarks ss)).append_left _
  | cons _ _ ihs ihss => exact ihs.append ihss
  | block _ ih => exact ih
  | define _ ih => exact ih.append_left _
  | branch _ _ ih ihr => exact (ih.append_left _).append ihr
  | repeatTimes _ ih => exact ih.append_left _
  | repeatWhile _ ih => exact ih.append_left _
  | otherwise _ ih => exact ih
  | otherwiseIf _ _ ih ihr => exact (ih.append_left _).append ihr

theorem references_sublist {c c' : Code} (h : Prunes c c') :
    (references c'.marks).Sublist (references c.marks) :=
  (h.marks_sublist.filter _).map _

/-- Deletion inside a statement leaves the names it declares. -/
theorem scope_eq {s s' : Stmt} (h : Prunes (.stmt s) (.stmt s')) (b : Bool) (outer : List Names)
    (scope : Names) : (ofStmt b outer scope s').1 = (ofStmt b outer scope s).1 := by
  cases h <;> rfl

/-- Nothing that is left refers to a name that has been deleted, since such names are declared at the
end of their scope. -/
theorem recorded {map : ScopeMap} {c c' : Code} (h : Prunes c c') {b : Bool} {outer : List Names}
    {scope : Names} (hc : Recorded map (c.found b outer scope)) :
    Recorded map (c'.found b outer scope) := by
  induction h generalizing b outer scope with
  | keep c => exact hc
  | cut ss _ =>
    simp only [Code.found, ofStmts_cons] at hc ⊢
    exact recorded_append.2 ⟨(recorded_append.1 hc).1, rfl, by simp [ofStmts, Findings.none]⟩
  | cons hs _ ihs ihss =>
    simp only [Code.found, ofStmts_cons] at hc ⊢
    obtain ⟨hstmt, hrest⟩ := recorded_append.1 hc
    rw [hs.scope_eq]
    exact recorded_append.2 ⟨ihs hstmt, ihss hrest⟩
  | block _ ih => exact @ih b (scope :: outer) [] hc
  | define _ ih =>
    obtain ⟨hhead, hbody⟩ := recorded_append.1 hc
    exact recorded_append.2 ⟨hhead, ih hbody⟩
  | branch _ _ ih ihr =>
    obtain ⟨hhead, hrest⟩ := recorded_append.1 hc
    obtain ⟨hcond, hbody⟩ := recorded_append.1 hhead
    exact recorded_append.2 ⟨recorded_append.2 ⟨hcond, ih hbody⟩, ihr hrest⟩
  | repeatTimes _ ih =>
    obtain ⟨hcount, hbody⟩ := recorded_append.1 hc
    exact recorded_append.2 ⟨hcount, ih hbody⟩
  | repeatWhile _ ih =>
    obtain ⟨hcond, hbody⟩ := recorded_append.1 hc
    exact recorded_append.2 ⟨hcond, ih hbody⟩
  | otherwise _ ih => exact @ih b (scope :: outer) [] hc
  | otherwiseIf _ _ ih ihr =>
    obtain ⟨hhead, hrest⟩ := recorded_append.1 hc
    obtain ⟨hcond, hbody⟩ := recorded_append.1 hhead
    exact recorded_append.2 ⟨recorded_append.2 ⟨hcond, ih hbody⟩, ihr hrest⟩

/-! ### Lockstep -/

variable {P : Pairing} {o o' : Origin} {b : Bool} {V W : View}

/-- Code does what is left of it. -/
theorem alike {c c' c'' : Code} (h : Prunes c c') (halike : Alike P o o' b V c' c'' W) :
    Alike P o o' b V c c'' W := by
  induction h generalizing b V W c'' with
  | keep c => exact halike
  | cut ss hreturn =>
    cases halike with
    | moreStmts hs hss =>
      cases hss
      obtain rfl := hs.inFunction hreturn
      exact .leave hreturn hs
    | leave _ hs => exact .leave hreturn hs
  | cons hprunes _ ihs ihss =>
    cases halike with
    | moreStmts hs hss => exact .moreStmts (ihs hs) (ihss hss)
    | leave hreturn hs => exact .leave (hprunes.isReturn_eq ▸ hreturn) (ihs hs)
  | block _ ih =>
    cases halike with
    | block hss => exact .block (ih hss)
  | define _ ih =>
    cases halike with
    | define hn hn' hname heq hparams hss => exact .define hn hn' hname heq hparams (ih hss)
  | branch _ _ ih ihr =>
    cases halike with
    | branch hsite he hss hr => exact .branch hsite he (ih hss) (ihr hr)
  | repeatTimes _ ih =>
    cases halike with
    | repeatTimes hsite he hss => exact .repeatTimes hsite he (ih hss)
  | repeatWhile _ ih =>
    cases halike with
    | repeatWhile hsite he hss => exact .repeatWhile hsite he (ih hss)
  | otherwise _ ih =>
    cases halike with
    | otherwise hss => exact .otherwise (ih hss)
  | otherwiseIf _ _ ih ihr =>
    cases halike with
    | otherwiseIf hsite he hss hr => exact .otherwiseIf hsite he (ih hss) (ihr hr)

end Prunes

/-! ### Sessions -/

/-- Every source unit stays where it is. -/
def Relocation.stay : Relocation := ⟨id, fun _ => .zero⟩

theorem Diagnostic.relocate_stay : Diagnostic.relocate .stay = id := by
  funext d
  obtain ⟨_, _, _, _, file⟩ := d
  cases file <;> rfl

@[simp] theorem Transcript.mapErrors_stay (t : Transcript) :
    t.mapErrors (·.relocate .stay) = t := by
  have hsame := t.mapErrors_id
  rwa [← Diagnostic.relocate_stay] at hsame

namespace Session

variable {s s' : Session}

/-- Sessions that correspond give the same transcripts, if no source unit is found elsewhere. -/
theorem transcripts_eq (h : Follows .stay s s') (hlength : s'.sources.length = s.sources.length)
    (runs : List (Setting × List Char)) : s'.transcripts runs = s.transcripts runs := by
  have hsame := transcripts_follow runs h (fun i => by rw [hlength]; rfl) fun _ => rfl
  simpa using hsame

/-- Programs that do the same have the same transcript in a session, and leave sessions that
correspond. -/
theorem execute_stay (hs : Follows .stay s s) (setting : Setting) (program program' : Compiled)
    {file : Nat} {V : View} (h : Alike (relocating .stay "") ⟨program.scope, file⟩
      ⟨program'.scope, file⟩ false (globalView s.globals) (.stmts program.stmts)
      (.stmts program'.stmts) V) :
    (s.execute setting program' file).2 = (s.execute setting program file).2 ∧
      Follows .stay (s.execute setting program file).1 (s.execute setting program' file).1 := by
  obtain ⟨W, hm⟩ := hs.machine setting program.scope program'.scope file file
  have hresult := program_follows setting.fuel (ready_relocating hs.size hm rfl) (by simp) h
  obtain ⟨hsame, hnext⟩ := execute_of_resultFollows hresult fun _ => ⟨rfl, hs⟩
  rw [String.empty_append] at hsame
  exact ⟨hsame.trans (Transcript.mapErrors_stay _), hnext⟩

/-- What follows a return in a list of statements never runs: where it is deleted, be it in some of
the lists of a program or in all of them, the analysis of scopes still accepts the program, and a run
of it writes the same, ends the same and leaves the same names bound; nor can any texts that run
afterwards tell which program has run. Distances are on record by the spans of the references, which
differ in a program that was read from a text. -/
theorem unreachable_after_return {globals : Names} {ss : List Stmt}
    (hspans : ((references (Stmt.allMarks ss)).map (·.span)).Nodup)
    (haccepted : (resolve globals ss).errors = []) :
    Prunes (.stmts ss) (.stmts (Stmt.prunedAll ss)) ∧
      ∀ ss', Prunes (.stmts ss) (.stmts ss') →
        (resolve globals ss').errors = [] ∧
        ∀ runs : List (Setting × List Char), (after runs).globals = globals →
          ∀ setting file,
            let ran := (after runs).execute setting
              ⟨ss, ScopeMap.ofReferences (resolve globals ss).references⟩ file
            let ran' := (after runs).execute setting
              ⟨ss', ScopeMap.ofReferences (resolve globals ss').references⟩ file
            ran'.2 = ran.2 ∧ ran'.1.globals = ran.1.globals ∧
              ∀ later, ran'.1.transcripts later = ran.1.transcripts later := by
  refine ⟨Prunes.prunedAll ss, fun ss' hprunes => ?_⟩
  -- what is left is on record in the map of the program as well as in its own
  have hrecorded : Recorded _ (resolve globals ss') :=
    hprunes.recorded (recorded_of_spans hspans haccepted)
  have hspans' := hspans.sublist (hprunes.references_sublist.map (·.span))
  have hrecorded' := recorded_of_spans hspans' hrecorded.errors
  refine ⟨hrecorded.errors, ?_⟩
  rintro runs rfl setting file ran ran'
  have hstay : Follows .stay (after runs) (after runs) :=
    follows_of_fixes (steady_after runs) (traceable_after runs) (fun _ _ => ⟨rfl, rfl⟩) rfl rfl rfl
  obtain ⟨V, halike⟩ : ∃ V, Alike (relocating .stay "") ⟨_, file⟩ ⟨_, file⟩ false (globalView _)
      (.stmts ss') (.stmts ss') V :=
    alike_of_recorded (P := relocating .stay "") (fun _ => ⟨rfl, rfl⟩) (fun _ => rfl)
      (overlooks_globalView _) hrecorded hrecorded'
  obtain ⟨hsame, hnext⟩ :=
    execute_stay hstay setting ⟨ss, _⟩ ⟨ss', _⟩ (hprunes.alike halike)
  refine ⟨hsame, hnext.globals, transcripts_eq hnext ?_⟩
  rw [sources_execute, sources_execute]

/-- A function that returns from a loop, in both branches of a conditional, with statements after
each return. -/
theorem unreachable_after_return_nested :
    let token (kind : Kind) (lexeme : String) (start : Nat) : Token :=
      { kind := kind, lexeme := lexeme, line := 1, span := ⟨start, start + 1⟩ }
    let name (lexeme : String) (start : Nat) : Token := token .identifier lexeme start
    let leave := Stmt.returnWith (token .returnWord "return" 5) (.variable (name "x" 6))
    let stop := Stmt.returnEmpty (token .returnWord "return" 10)
    let program (afterLeave afterStop : List Stmt) : List Stmt :=
      [.define (name "f" 0) [name "x" 1]
        [.branch (token .ifWord "if" 2) (.variable (name "x" 3))
          [.repeatWhile (token .repeatWord "repeat" 4) (.variable (name "x" 7))
            (leave :: afterLeave)]
          (.block (stop :: afterStop))],
        .expression (.call (.variable (name "display" 12))
          [.call (.variable (name "f" 13)) [.constant (.bool true)] (token .rightParen ")" 14)]
          (token .rightParen ")" 15))]
    let ss := program [.create (name "y" 8) (.variable (name "x" 9))]
      [.change (name "x" 11) (.constant .empty)]
    let globals := Session.initial.globals
    ((references (Stmt.allMarks ss)).map (·.span)).Nodup ∧ (resolve globals ss).errors = [] ∧
      Stmt.prunedAll ss = program [] [] ∧ (resolve globals (program [] [])).errors = [] ∧
      ∀ setting file,
        let ran := Session.initial.execute setting
          ⟨ss, ScopeMap.ofReferences (resolve globals ss).references⟩ file
        let ran' := Session.initial.execute setting
          ⟨program [] [], ScopeMap.ofReferences (resolve globals (program [] [])).references⟩ file
        ran'.2 = ran.2 ∧ ran'.1.globals = ran.1.globals ∧
          ∀ later, ran'.1.transcripts later = ran.1.transcripts later := by
  intro token name leave stop program ss globals
  have hspans : ((references (Stmt.allMarks ss)).map (·.span)).Nodup := by decide
  have haccepted : (resolve globals ss).errors = [] := by decide
  have hpruned : Stmt.prunedAll ss = program [] [] := rfl
  obtain ⟨hall, hprunes⟩ := unreachable_after_return hspans haccepted
  obtain ⟨hleft, hruns⟩ := hprunes (program [] []) (hpruned ▸ hall)
  exact ⟨hspans, haccepted, hpruned, hleft, hruns [] rfl⟩

/-- References that share a span share a distance, the one recorded last. So a statement that never
runs may decide where the name in the return before it is looked up. -/
theorem unreachable_reference_decides :
    let token (kind : Kind) (lexeme : String) (start : Nat) : Token :=
      { kind := kind, lexeme := lexeme, line := 1, span := ⟨start, start + 1⟩ }
    let name (lexeme : String) (start : Nat) : Token := token .identifier lexeme start
    let program (afterReturn : List Stmt) : List Stmt :=
      [.create (name "x" 0) (.constant (.text "1")),
        .define (name "f" 1) []
          (.returnWith (token .returnWord "return" 2) (.variable (name "x" 50)) :: afterReturn),
        .expression (.call (.variable (name "f" 3)) [] (token .rightParen ")" 4))]
    let ss := program
      [.create (name "x" 5) (.constant .empty), .expression (.variable (name "x" 50))]
    let globals := Session.initial.globals
    let setting : Setting := ⟨9, fun _ => Number.ofDecimalText ['0'], none⟩
    let ending (ss : List Stmt) : Ending :=
      (Session.initial.execute setting
        ⟨ss, ScopeMap.ofReferences (resolve globals ss).references⟩ 0).2.ending
    (resolve globals ss).errors = [] ∧ Stmt.prunedAll ss = program [] ∧
      (resolve globals (program [])).errors = [] ∧
      ending ss = .failure [⟨.runtime (.notDefined "x"), 1, .lexeme "x", ⟨50, 51⟩, some 0⟩] ∧
      ending (program []) = .success := by
  exact ⟨by decide, rfl, by decide, by cbv, by cbv⟩

end Session

end Offside
