import Offside.Proofs.Concatenation
import Offside.Proofs.Phases

/-!
# Two runs as one

Two texts that run one after the other can be run as one. The first leaves its names bound, and the
second, when it is analyzed, finds them as if they had just been declared; what it does then is the
same as what the end of the joint text does.

* `Relocation.joining`: where source units are found when two of them are one;
* `Lockstep.Alike.names_after`: the names that the analysis of scopes expects are bound;
* `Session.follows_first`, `Session.follows_second`: the two parts of the joint run;
* `Session.run_joined`: texts one after another, and at once.
-/

namespace Offside

open Lockstep

/-! ### Source units -/

/-- Where source units are found when unit `k` and the next one are a single unit, in which `σ` comes
before the text of the second. -/
def Relocation.joining (k : Nat) (σ : Shift) : Relocation :=
  ⟨fun j => if j ≤ k then j else j - 1, fun j => if j = k + 1 then σ else .zero⟩

namespace Relocation

variable (k : Nat) (σ : Shift)

theorem joining_fixes {j : Nat} (h : j ≤ k) : (joining k σ).Fixes j :=
  ⟨if_pos h, if_neg (by omega)⟩

theorem file_joining_succ : (joining k σ).file (k + 1) = k := if_neg (by omega)

theorem shift_joining_succ : (joining k σ).shift (k + 1) = σ := if_pos rfl

theorem file_joining_add (i : Nat) : (joining k σ).file (k + 2 + i) = k + 1 + i := by
  show (if k + 2 + i ≤ k then _ else _) = _
  rw [if_neg (by omega)]
  omega

theorem shift_joining_add (i : Nat) : (joining k σ).shift (k + 2 + i) = .zero :=
  if_neg (by omega)

end Relocation

/-! ### Names -/

/-- The scope that a program leads to is what its view binds then. -/
theorem Lockstep.Alike.names_after {P : Pairing} {o o' : Origin} {V V₁ : View} {ss ss' : List Stmt}
    (h : Alike P o o' false V (.stmts ss) (.stmts ss') V₁) (outer : List Names) :
    (Scope.ofStmts false outer V.left ss).1 = V₁.left := by
  induction ss generalizing V ss' with
  | nil =>
    cases h
    rfl
  | cons s ss ih =>
    cases h with
    | @moreStmts _ _ V₂ _ _ _ _ _ hs hss =>
      have hstmt : (Scope.ofStmt false outer V.left s).1 = V₂.left := by
        cases hs with
        | create hname _ _ _ =>
          rw [Scope.ofStmt_create, Scope.declare, if_neg hname]
          rfl
        | define hname _ _ _ _ _ =>
          rw [Scope.ofStmt_define, Scope.declare, if_neg hname]
          rfl
        | _ => rfl
      rw [Scope.ofStmts_cons, hstmt]
      exact ih hss

namespace Session

variable {s : Session} {setting : Setting}

/-- After a program that has run to its end, the names are bound that it declares. -/
theorem names_of_done {text : List Char} {program : Compiled} (hs : s.store.Steady)
    (h : compile s.globals text = .ok program) {file : Nat} {m : Machine}
    (hdone : Eval.program setting.fuel program.stmts (s.machine setting program.scope file) =
      .done () m) :
    m.store.names Store.globals = (Scope.ofStmts false [] s.globals program.stmts).1 := by
  obtain ⟨hsize, W, hstore⟩ := hs
  obtain ⟨V, halike⟩ := alike_of_compile h file
  have hresult := program_alike setting.fuel (ready_machine setting hsize hstore program.scope file)
    halike
  rw [hdone] at hresult
  obtain ⟨W', -, -, hready⟩ := hresult
  have hnames := halike.names_after []
  rw [left_globalView] at hnames
  rw [hnames, hready.realizes.left]

/-! ### The joint run -/

/-- The first part of a joint run does what the first text does. -/
theorem follows_first (setting : Setting) {R : Relocation} {a : List Char} {first : Compiled}
    {scope : ScopeMap} (hs : s.store.Steady) (htrace : s.Traceable)
    (hfixes : ∀ k ≤ s.sources.length, R.Fixes k) (hfirst : compile s.globals a = .ok first)
    (hscope : ∀ t ∈ references (Stmt.allMarks first.stmts), ∀ d, first.scope[t.span]? = some d →
      scope[t.span]? = some d) (text text' : List Char) :
    ResultFollows R ""
      (Eval.program setting.fuel first.stmts
        ({ s with sources := s.sources ++ [text] }.machine setting first.scope s.sources.length))
      (Eval.program setting.fuel first.stmts
        ({ s with sources := s.sources ++ [text'] }.machine setting scope s.sources.length)) := by
  have hfollows : Follows R { s with sources := s.sources ++ [text] }
      { s with sources := s.sources ++ [text'] } :=
    { follows_of_fixes hs htrace (fun k hk => hfixes k (Nat.le_of_lt hk)) rfl rfl rfl with }
  obtain ⟨hfile, hshift⟩ := hfixes s.sources.length le_rfl
  obtain ⟨V, halike⟩ := alike_of_compile hfirst s.sources.length
  have hmoved : Alike (relocating R "") ⟨first.scope, s.sources.length⟩
      ⟨scope, R.file s.sources.length⟩ false (globalView s.globals) (.stmts first.stmts) _ V :=
    halike.relocate fun t ht d hd => by
      rw [hshift]
      exact hscope t ht d hd
  rw [hfile, hshift, Token.shift_zero, Code.mapTokens_id] at hmoved
  obtain ⟨W, hm⟩ := hfollows.machine setting first.scope scope s.sources.length s.sources.length
  exact program_follows setting.fuel (ready_relocating hfollows.size hm hfollows.globals) (by simp)
    hmoved

/-- The second part of a joint run does what the second text does, after what has been written. -/
theorem follows_second {R : Relocation} {b : List Char} {second : Compiled} (file : Nat)
    {m m' : Machine} (hlimit : setting.limit = none) (hm : Lockstep.Follows R "" m m')
    (hclock : m'.clock = setting.clock) (hopen : m'.sink.limit = none)
    (hdepth : m'.context.depth = 0) (hfile : m'.context.file = R.file file)
    (hsecond : compile (s.keep m).globals b = .ok second)
    (hscope : ∀ t ∈ references (Stmt.allMarks second.stmts), ∀ d, second.scope[t.span]? = some d →
      m'.context.scope[(t.shift (R.shift file)).span]? = some d) (text : List Char) :
    ResultFollows R m.sink.text
      (Eval.program setting.fuel second.stmts
        ({ s.keep m with sources := s.sources ++ [text] }.machine setting second.scope file))
      (Eval.program setting.fuel
        (Stmt.mapAllTokens (Token.shift (R.shift file)) second.stmts) m') := by
  have htext : m'.sink.text = m.sink.text := by simpa using text_eq hm
  obtain ⟨hsize, ⟨W, hmachine⟩, hnames⟩ := hm
  obtain ⟨V, halike⟩ := alike_of_compile hsecond file
  have hmoved : Alike (relocating R m.sink.text) ⟨second.scope, file⟩
      ⟨m'.context.scope, R.file file⟩ false (globalView (s.keep m).globals) (.stmts second.stmts) _ V :=
    halike.relocate hscope
  rw [← hfile] at hmoved
  have hmachine' : MachineAlike (relocating R m.sink.text) W
      ({ s.keep m with sources := s.sources ++ [text] }.machine setting second.scope file) m' :=
    { store := hmachine.store.allow (relocating_permits R "" m.sink.text)
      definitions := hmachine.definitions
      sink := ⟨by simp [machine, Sink.fresh, htext], by rw [hopen, machine, hlimit]; rfl, .inr hlimit⟩
      clock := hclock.symm
      readings := hmachine.readings
      depth := hdepth.symm }
  exact program_follows setting.fuel (ready_relocating hsize hmachine' hnames) (by simp) hmoved

/-- What a run that ends well has done. -/
theorem run_of_success {source : List Char} (h : (s.run setting source).2.ending = .success) :
    ∃ program m, compile s.globals (Text.normalizeNewlines source) = .ok program ∧
      Eval.program setting.fuel program.stmts
          ({ s with sources := s.sources ++ [Text.normalizeNewlines source] }.machine setting
            program.scope s.sources.length) = .done () m ∧
      s.run setting source =
        ({ s with sources := s.sources ++ [Text.normalizeNewlines source] }.keep m,
          ⟨m.sink.text, .success⟩) := by
  cases hcompile : compile s.globals (Text.normalizeNewlines source) with
  | error errors =>
    rw [run_of_compile_error setting source hcompile] at h
    cases h
  | ok program =>
    rw [run_of_compile_ok setting source hcompile] at h ⊢
    unfold execute at h ⊢
    cases hr : Eval.program setting.fuel program.stmts
        ({ s with sources := s.sources ++ [Text.normalizeNewlines source] }.machine setting
          program.scope s.sources.length) with
    | done _ m => exact ⟨program, m, rfl, hr, rfl⟩
    | fault d m => simp [hr] at h
    | exhausted => simp [hr] at h

theorem run_of_normalized (setting : Setting) {text : List Char} {program : Compiled}
    (htext : Text.normalizeNewlines text = text) (h : compile s.globals text = .ok program) :
    s.run setting text =
      { s with sources := s.sources ++ [text] }.execute setting program s.sources.length := by
  have hnormalized : compile s.globals (Text.normalizeNewlines text) = .ok program := by
    rw [htext]
    exact h
  rw [run_of_compile_ok setting text hnormalized, htext]

/-- A text that runs after one that ended well does what it does as the end of a joint text. -/
theorem run_joined {a b : List Char} {second : Compiled} (hs : s.store.Steady)
    (htrace : s.Traceable) (hlimit : setting.limit = none) (ha : Text.normalizeNewlines a = a)
    (hb : Text.normalizeNewlines b = b) (haend : Text.endsWithNewline a = true)
    (hbend : Text.endsWithNewline b = true) (hsuccess : (s.run setting a).2.ending = .success)
    (hsecond : compile (s.run setting a).1.globals b = .ok second)
    (hterminates : ((s.run setting a).1.run setting b).2.ending ≠ .exhausted) :
    (∃ program, compile s.globals (a ++ b) = .ok program) ∧
      (s.run setting (a ++ b)).2 =
        ⟨(s.run setting a).2.output ++ ((s.run setting a).1.run setting b).2.output,
          ((s.run setting a).1.run setting b).2.ending.mapErrors
            (·.relocate (.joining s.sources.length (Layout.extent a)))⟩ ∧
      Follows (.joining s.sources.length (Layout.extent a)) ((s.run setting a).1.run setting b).1
        (s.run setting (a ++ b)).1 := by
  obtain ⟨first, m, hfirst, hdone, hrun⟩ := run_of_success hsuccess
  rw [ha] at hfirst hdone hrun
  rw [hrun] at hsecond hterminates ⊢
  have hnames := names_of_done (s := { s with sources := s.sources ++ [a] }) hs hfirst hdone
  have hsecond' : compile (Scope.ofStmts false [] s.globals first.stmts).1 b = .ok second :=
    (congrArg (compile · b) hnames).symm.trans hsecond
  obtain ⟨scope, hjoint, hscope, hscope'⟩ := compile_append haend hbend hfirst hsecond'
  have hrun₂ := run_of_normalized setting hb hsecond
  have hrun' := run_of_normalized setting (Text.normalizeNewlines_append ha hb) hjoint
  rw [hrun₂] at hterminates ⊢
  rw [hrun']
  refine ⟨⟨_, hjoint⟩, ?_⟩
  -- the first part of the joint program
  have hmoves := Eval.moves_program setting.fuel first.stmts
    ({ s with sources := s.sources ++ [a ++ b] }.machine setting scope s.sources.length)
  have hresult := follows_first setting hs htrace
    (fun k hk => Relocation.joining_fixes s.sources.length (Layout.extent a) hk) hfirst hscope a
    (a ++ b)
  rw [hdone] at hresult
  cases hr : Eval.program setting.fuel first.stmts
      ({ s with sources := s.sources ++ [a ++ b] }.machine setting scope s.sources.length) with
  | done _ m' =>
    rw [hr] at hresult hmoves
    -- and the second part
    have hmore := follows_second (s := { s with sources := s.sources ++ [a] })
      (s.sources.length + 1) hlimit hresult hmoves.clock (hmoves.limit.trans hlimit)
      (congrArg Context.depth hmoves.context)
      ((congrArg Context.file hmoves.context).trans (Relocation.file_joining_succ _ _).symm) hsecond
      (by rw [hmoves.context, Relocation.shift_joining_succ]; exact hscope') b
    rw [Relocation.shift_joining_succ, ← Eval.program_append_of_done hr] at hmore
    have hlength : (s.sources ++ [a]).length = s.sources.length + 1 := by simp
    simp only [keep, hlength] at hterminates ⊢
    exact execute_of_resultFollows hmore fun h => absurd h hterminates
  | fault d m' =>
    rw [hr] at hresult
    exact hresult.elim
  | exhausted =>
    rw [hr] at hresult
    exact hresult.elim

/-- Whatever has run before: of two texts that end with a line feed let the first end well and the
second compile after it, with nothing that stops the output. Run as one text they compile, write what
they write one after the other, and end as the second does, where a diagnostic that points into the
second text is moved by the first and belongs to the joint text. The same global names are bound, to
values that correspond, and all runs after that go the same way. -/
theorem entries_at_once (runs : List (Setting × List Char)) (setting : Setting) (a b : List Char)
    (hlimit : setting.limit = none) (ha : Text.normalizeNewlines a = a)
    (hb : Text.normalizeNewlines b = b) (haend : Text.endsWithNewline a = true)
    (hbend : Text.endsWithNewline b = true)
    (hsuccess : ((after runs).run setting a).2.ending = .success)
    (hcompiles : ¬ (((after runs).run setting a).1.run setting b).2.ending.Rejected)
    (hterminates : (((after runs).run setting a).1.run setting b).2.ending ≠ .exhausted) :
    let first := (after runs).run setting a
    let second := first.1.run setting b
    let joint := (after runs).run setting (a ++ b)
    let R := Relocation.joining runs.length ⟨(Text.lines a).length, Text.size a⟩
    ¬ joint.2.ending.Rejected ∧
      joint.2.output = first.2.output ++ second.2.output ∧
      joint.2.ending = second.2.ending.mapErrors (·.relocate R) ∧
      joint.1.globals = second.1.globals ∧ Follows R second.1 joint.1 ∧
      ∀ later, joint.1.transcripts later =
        (second.1.transcripts later).map (·.mapErrors (·.relocate R)) := by
  intro first second joint R
  have htrace := traceable_after runs
  have hlength : (after runs).sources.length = runs.length := by simp [sources_after]
  cases hsecond : compile first.1.globals (Text.normalizeNewlines b) with
  | error errors => exact absurd (rejected_of_compile_error setting b hsecond) hcompiles
  | ok program =>
    rw [hb] at hsecond
    obtain ⟨⟨whole, hwhole⟩, hsame, hfollows⟩ := run_joined (steady_after runs) htrace hlimit ha hb
      haend hbend hsuccess hsecond hterminates
    rw [hlength] at hsame hfollows
    rw [← Text.normalizeNewlines_append ha hb] at hwhole
    refine ⟨fun hrejected => ?_, congrArg Transcript.output hsame, congrArg Transcript.ending hsame,
      hfollows.globals, hfollows, fun later => ?_⟩
    · rcases ending_of_compile_ok setting (a ++ b) htrace hwhole with hend | hend | hend
      · obtain ⟨errors, herrors, -⟩ := hrejected
        cases hend.symm.trans herrors
      · exact Ending.not_stopped_of_rejected hrejected hend
      · obtain ⟨errors, herrors, -⟩ := hrejected
        cases hend.symm.trans herrors
    · have hsources : second.1.sources.length = runs.length + 2 := by
        simp [second, first, sources_run, hlength]
      have hsources' : joint.1.sources.length = runs.length + 1 := by
        simp [joint, sources_run, hlength]
      refine transcripts_follow later hfollows (fun i => ?_) fun i => ?_
      · rw [hsources, hsources']
        exact Relocation.file_joining_add _ _ i
      · rw [hsources]
        exact Relocation.shift_joining_add _ _ i

/-- A conditional whose level the end of its text closes, and an operator that faults: in the joint
text the fault is two lines and fifteen bytes further on. -/
theorem entries_at_once_operator :
    let setting : Setting := ⟨3, fun _ => Number.ofDecimalText ['0'], none⟩
    let a := ['i', 'f', ' ', 't', 'r', 'u', 'e', '\n', ' ', 'e', 'm', 'p', 't', 'y', '\n']
    let b := ['n', 'o', 't', ' ', 'e', 'm', 'p', 't', 'y', '\n']
    let error : Diagnostic :=
      ⟨.runtime (.operandNotBoolean "not"), 1, .lexeme "not", ⟨0, 3⟩, some 1⟩
    ((after []).run setting a).2.ending = .success ∧
      (((after []).run setting a).1.run setting b).2.ending = .failure [error] ∧
      ((after []).run setting (a ++ b)).2.ending =
        .failure [{ error with line := 3, span := ⟨15, 18⟩, file := some 0 }] := by
  intro setting a b error
  have hsuccess : ((after []).run setting a).2.ending = .success := by decide
  have hfault : (((after []).run setting a).1.run setting b).2.ending = .failure [error] := by decide
  have hstopped : (((after []).run setting a).1.run setting b).2.ending.Stopped := ⟨error, hfault, rfl⟩
  have hjoint := entries_at_once [] setting a b rfl (by decide) (by decide) (by decide) (by decide)
    hsuccess (fun hrejected => Ending.not_stopped_of_rejected hrejected hstopped)
    (by rw [hfault]; nofun)
  refine ⟨hsuccess, hfault, hjoint.2.2.1.trans ?_⟩
  rw [hfault]
  decide

end Session

end Offside
