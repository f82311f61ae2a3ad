import Offside.Proofs.Grammar.Naturality
import Offside.Proofs.Insertion
import Offside.Proofs.Phases

/-!
# Blank and comment lines do nothing

A program with a blank or comment line inserted somewhere is the same program, with its tokens moved
from that line on. Spans tell references from each other, and tokens that are moved apart are still
told apart, so every reference keeps its distance. A run of the one program goes in lockstep with a
run of the other: it writes the same and ends the same, and a diagnostic that points into the text
after the inserted line is moved along with the text.

* `Session.compile_ok_transport`, `Session.compile_error_transport`: programs that are carried
  elsewhere;
* `Lockstep.carrying`: the pairing of a run with one whose text is carried elsewhere;
* `Session.run_transport`: the two runs;
* `Session.invisible_insertion`: blank and comment lines.
-/

namespace Offside

open Lockstep

variable {T : Transport}

/-- A diagnostic carried along with the text of a given source unit. -/
def Diagnostic.carry (T : Transport) (file : Nat) (d : Diagnostic) : Diagnostic :=
  if d.file = some file then T.diagnostic d else d

theorem Diagnostic.carry_inFile {d : Diagnostic} (hd : d.file = none) (file : Nat) :
    (d.inFile file).carry T file = (T.diagnostic d).inFile file := by
  rw [carry, if_pos (by simp [inFile, hd]), T.inFile_diagnostic]

namespace Lockstep

/-- A run next to one in which the text of one source unit is carried elsewhere. -/
def carrying (T : Transport) (file : Nat) : Pairing :=
  { identity with site := fun k k' t t' => k = k' ∧ t' = if k = file then T.token t else t }

variable {file : Nat}

theorem eq_carry_of_faultAlike {d d' : Diagnostic} (h : FaultAlike (carrying T file) d d') :
    d' = d.carry T file := by
  obtain ⟨k, _, t, _, cause, ⟨rfl, rfl⟩, -, rfl, rfl⟩ := h
  by_cases hk : k = file
  · rw [if_pos hk, hk, T.diagnose_token, Diagnostic.carry_inFile rfl]
  · have hfile : ((t.diagnose cause).inFile k).file ≠ some file := fun h => hk (Option.some.inj h)
    rw [if_neg hk, Diagnostic.carry, if_neg hfile]

/-- A store without functions of the text corresponds to itself. -/
theorem StoreAlike.carry {W : World} {s : Store} (h : StoreAlike identity W s s)
    (hfile : ∀ a c, s.value? a = some (.function c) → c.file ≠ file) :
    StoreAlike (carrying T file) W s s :=
  h.of_identity (fun _ => rfl) (fun _ => rfl) rfl fun a c hc _ => ⟨rfl, (if_neg (hfile a c hc)).symm⟩

/-- Code of the text does the same as the code carried elsewhere, if the distances of its references
can be looked up there. -/
theorem Alike.carry {scope scope' : ScopeMap} {b : Bool} {V W : View} {c c' : Code}
    (h : Alike identity ⟨scope, file⟩ ⟨scope, file⟩ b V c c' W)
    (hscope : ∀ span, scope'[T.span span]? = scope[span]?) :
    Alike (carrying T file) ⟨scope, file⟩ ⟨scope', file⟩ b V c (c'.mapTokens T.token) W := by
  refine h.replace ⟨id, ?_, T.lexeme_token, fun t _ d hd => ?_⟩
  · rintro t _ ⟨-, rfl⟩
    exact ⟨rfl, (if_pos rfl).symm⟩
  · rw [T.span_token]
    exact (hscope t.span).trans hd

end Lockstep

namespace Session

/-! ### Programs that are carried elsewhere -/

/-- A program does the same as the program carried elsewhere, whatever texts the session keeps. -/
theorem execute_carried {s : Session} (hs : s.store.Steady) (htrace : s.Traceable)
    (setting : Setting) {text : List Char} {program : Compiled}
    (hcompile : compile s.globals text = .ok program) {scope : ScopeMap}
    (hscope : ∀ span, scope[T.span span]? = program.scope[span]?) (texts texts' : List (List Char)) :
    ({ s with sources := texts' }.execute setting
        ⟨Stmt.mapAllTokens T.token program.stmts, scope⟩ s.sources.length).2 =
      ({ s with sources := texts }.execute setting program s.sources.length).2.mapErrors
        (Diagnostic.carry T s.sources.length) := by
  obtain ⟨hsize, W, hstore⟩ := hs
  obtain ⟨V, halike⟩ := alike_of_compile hcompile s.sources.length
  have hready := ready_machine setting hsize hstore program.scope s.sources.length
  -- the functions of the store are of earlier texts, and those stay where they are
  have hcarried : StoreAlike (carrying T s.sources.length) W s.store s.store :=
    hstore.carry fun a c hc => Nat.ne_of_lt (file_lt_of_traceable htrace hc)
  exact execute_of_alike setting (fun hsink => congrArg Sink.text (Eq.symm hsink))
    eq_carry_of_faultAlike program ⟨Stmt.mapAllTokens T.token program.stmts, scope⟩
    ⟨{ hready.machine with store := hcarried }, rfl, rfl, { hready.realizes with }⟩
    (halike.carry hscope)

section

variable {text text' : List Char} (hscan : Layout.scan text' = (Layout.scan text).transport T)
include hscan

theorem compile_error_transport {globals : Names} {errors : List Diagnostic}
    (h : compile globals text = .error errors) :
    compile globals text' = .error (errors.map T.diagnostic) := by
  have hread := Grammar.read_transport hscan
  unfold compile at h ⊢
  rw [hread]
  cases hr : Grammar.read text with
  | error es =>
    rw [hr] at h
    rw [← Except.error.inj h]
    rfl
  | ok stmts =>
    simp only [hr, Except.map, Except.mapError, Scope.resolve_transport, Scope.Findings.transport,
      List.isEmpty_map] at h ⊢
    split at h
    · cases h
    · rename_i herrors
      rw [if_neg herrors, ← Except.error.inj h]

/-- A text whose tokens are carried apart compiles to the same program, carried along, and every
reference keeps its distance. -/
theorem compile_ok_transport (hspan : Function.Injective T.span) {globals : Names}
    {program : Compiled} (h : compile globals text = .ok program) :
    ∃ scope, compile globals text' = .ok ⟨Stmt.mapAllTokens T.token program.stmts, scope⟩ ∧
      ∀ span, scope[T.span span]? = program.scope[span]? := by
  obtain ⟨hread, herrors, hscope⟩ := compile_eq_ok h
  have hread' : Grammar.read text' = .ok (Stmt.mapAllTokens T.token program.stmts) := by
    rw [Grammar.read_transport hscan, hread]
    rfl
  have hresolve := Scope.resolve_transport T globals program.stmts
  refine ⟨_, compile_of_read globals hread' ?_, fun span => ?_⟩
  · rw [hresolve, Scope.Findings.transport, herrors]
    rfl
  · rw [hresolve, hscope]
    exact ScopeMap.getElem?_ofReferences_map hspan _ span

/-- A text whose tokens are carried apart writes what the other one writes and ends as it ends, with
the diagnostics that point into the text carried along. -/
theorem run_transport (hspan : Function.Injective T.span) {s : Session} (hs : s.store.Steady)
    (htrace : s.Traceable) (setting : Setting) (htext : Text.normalizeNewlines text = text)
    (htext' : Text.normalizeNewlines text' = text') :
    (s.run setting text').2 =
      (s.run setting text).2.mapErrors (Diagnostic.carry T s.sources.length) := by
  cases hcompile : compile s.globals text with
  | error errors =>
    have hcompile' := compile_error_transport hscan hcompile
    rw [← htext] at hcompile
    rw [← htext'] at hcompile'
    rw [run_of_compile_error setting text hcompile, run_of_compile_error setting text' hcompile']
    refine congrArg (Transcript.mk "" <| .failure ·) ?_
    rw [List.map_map, List.map_map]
    refine List.map_congr_left fun d hd => ?_
    rw [Function.comp_apply, Function.comp_apply,
      Diagnostic.carry_inFile (errors_of_compile hcompile d hd).file]
  | ok program =>
    obtain ⟨scope, hcompile', hscope⟩ := compile_ok_transport hscan hspan hcompile
    have hsame := execute_carried hs htrace setting hcompile hscope (s.sources ++ [text])
      (s.sources ++ [text'])
    rw [← htext] at hcompile
    rw [← htext'] at hcompile'
    rw [run_of_compile_ok setting text hcompile, run_of_compile_ok setting text' hcompile', htext,
      htext']
    exact hsame

end

/-! ### Lines that do nothing -/

/-- Whatever has run before: insert a line, blank or with only a comment, into a text that is not
empty, at the start of a line or at the end. The tokens and the faults of the text that start there or
later are moved by the length of the line and by one line, and all others stay. The text then writes
what it writes without the line and ends as it ends without it, where a diagnostic that points into
this text, there or later, is moved as well. -/
theorem invisible_insertion (runs : List (Setting × List Char)) (setting : Setting)
    (a b line : List Char) (hne : a ++ b ≠ []) (hreturn : '\r' ∉ a ++ b)
    (hstart : a = [] ∨ Text.endsWithNewline a = true) (hreturn' : '\r' ∉ line)
    (hline : '\n' ∉ line)
    (hinvisible : Text.isBlank line = true ∨
      ∃ blanks comment, line = blanks ++ '/' :: '/' :: comment ∧
        ∀ c ∈ blanks, c = ' ' ∨ c = '\t' ∨ c = '\x0c') :
    let text := a ++ b
    let text' := a ++ (line ++ '\n' :: b)
    let position := Text.size a
    let σ : Shift := ⟨1, Text.size line + 1⟩
    let before := (after runs).run setting text
    let inserted := (after runs).run setting text'
    (Layout.scan text').tokens = (Layout.scan text).tokens.map
        (fun t => if position ≤ t.span.start then t.shift σ else t) ∧
      (Layout.scan text').errors = (Layout.scan text).errors.map
        (fun d => if position ≤ d.span.start then d.shift σ else d) ∧
      inserted.2.output = before.2.output ∧
      inserted.2.ending = before.2.ending.mapErrors fun d =>
        if d.file = some runs.length ∧ position ≤ d.span.start then d.shift σ else d := by
  intro text text' position σ before inserted
  have hvisible : ¬(⟨line, true⟩ : Text.Line).Visible := by
    rintro ⟨hblank, hcomment⟩
    rcases hinvisible with h | ⟨blanks, comment, hsplit, hblanks⟩
    · exact absurd (hblank.symm.trans h) (by simp)
    · refine hcomment ⟨blanks, comment, hsplit, fun c hc => ?_⟩
      simpa [Indent.isPart, or_assoc] using hblanks c hc
  have hscan : Layout.scan text' = (Layout.scan text).transport (.insertion position σ) :=
    Layout.scan_insert hne hstart hline hvisible
  have hreturns : '\r' ∉ text' := by
    simp only [List.mem_append, not_or] at hreturn
    simp [text', hreturn, hreturn']
  have hrun := run_transport hscan (Transport.span_insertion_injective position σ)
    (steady_after runs) (traceable_after runs) setting (Text.normalizeNewlines_of_not_mem hreturn)
    (Text.normalizeNewlines_of_not_mem hreturns)
  have hcarry : Diagnostic.carry (.insertion position σ) (after runs).sources.length = fun d =>
      if d.file = some runs.length ∧ position ≤ d.span.start then d.shift σ else d := by
    funext d
    rw [sources_after, List.length_map, ite_and]
    rfl
  rw [hcarry] at hrun
  refine ⟨congrArg Scan.tokens hscan, congrArg Scan.errors hscan, ?_, congrArg Transcript.ending hrun⟩
  exact (congrArg Transcript.output hrun).trans rfl

/-- A comment between the header of a conditional and its block, at an indentation of its own: the
fault in the block is one line and five bytes further on. -/
theorem invisible_insertion_comment :
    let setting : Setting := ⟨5, fun _ => Number.ofDecimalText ['0'], none⟩
    let a := ['i', 'f', ' ', 't', 'r', 'u', 'e', '\n']
    let b := [' ', 'n', 'o', 't', ' ', 'e', 'm', 'p', 't', 'y', '\n']
    let line := ['\t', '/', '/', '?']
    let error : Diagnostic :=
      ⟨.runtime (.operandNotBoolean "not"), 2, .lexeme "not", ⟨9, 12⟩, some 0⟩
    Text.endsWithNewline a = true ∧
      ((after []).run setting (a ++ b)).2.ending = .failure [error] ∧
      ((after []).run setting (a ++ (line ++ '\n' :: b))).2.ending =
        .failure [{ error with line := 3, span := ⟨14, 17⟩ }] := by
  intro setting a b line error
  have hfault : ((after []).run setting (a ++ b)).2.ending = .failure [error] := by decide
  have hinsertion := invisible_insertion [] setting a b line (by simp [a]) (by decide)
    (.inr (by decide)) (by decide) (by decide) (.inr ⟨['\t'], ['?'], rfl, by simp⟩)
  refine ⟨by decide, hfault, hinsertion.2.2.2.trans ?_⟩
  rw [hfault]
  decide

end Session

end Offside
