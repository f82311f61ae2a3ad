import Offside.Proofs.Backtrace
import Offside.Report

/-!
# What the diagnostics of a session point at

Every diagnostic that a run of a session returns names the text it points into by its number, and
points at something there. Before a program runs that text is the one of the run. Afterwards it is
the text of whoever raised the fault, which an earlier run may have given.

* `Session.traceable_after`: the functions of a session are ones that its texts define, at any time;
* `Session.attribution`: where the diagnostics of one run come from;
* `Session.errors_point`: what the diagnostics of a run point at.
-/

namespace Offside.Session

/-! ### Texts -/

theorem sources_execute (s : Session) (setting : Setting) (program : Compiled) (file : Nat) :
    (s.execute setting program file).1.sources = s.sources := by
  unfold execute
  split <;> rfl

theorem sources_run (s : Session) (setting : Setting) (source : List Char) :
    (s.run setting source).1.sources = s.sources ++ [Text.normalizeNewlines source] := by
  unfold run
  dsimp only
  split
  · rfl
  · exact sources_execute _ setting _ _

/-- A session keeps the text of every run, with its line endings normalized. -/
theorem sources_after (runs : List (Setting × List Char)) :
    (after runs).sources = runs.map fun r => Text.normalizeNewlines r.2 := by
  suffices h : ∀ s : Session, (runs.foldl (fun s r => (s.run r.1 r.2).1) s).sources =
      s.sources ++ runs.map fun r => Text.normalizeNewlines r.2 from h initial
  induction runs with
  | nil => exact fun s => (List.append_nil _).symm
  | cons r runs ih =>
    intro s
    rw [List.foldl_cons, ih, sources_run, List.map_cons, List.append_assoc, List.singleton_append]

/-! ### Faults -/

/-- The functions that a session keeps are ones that its texts define. -/
def Traceable (s : Session) : Prop := s.store.Sourced s.sources

theorem part_of_compile {globals : Names} {text : List Char} {program : Compiled}
    (h : compile globals text = .ok program) (sources : List (List Char)) :
    Part (sources ++ [text]) sources.length program.stmts :=
  ⟨text, program.stmts, List.getElem?_concat_length, (compile_eq_ok h).1, List.Subset.refl _,
    List.Subset.refl _⟩

variable {s : Session}

/-- Running a program keeps the functions ones that texts define, and its fault has a backtrace. -/
theorem traced_execute (hs : s.Traceable) (setting : Setting) {program : Compiled} {file : Nat}
    (hpart : Part s.sources file program.stmts) :
    (s.execute setting program file).1.Traceable ∧
      ∀ d ∈ (s.execute setting program file).2.ending.errors,
        Backtrace s.sources ⟨program.scope, file, 0⟩ program.stmts d := by
  have hprogram : (Eval.program setting.fuel program.stmts).Traced s.sources ⟨program.scope, file, 0⟩
      program.stmts fun _ => True :=
    Eval.traced_program hpart setting.fuel program.stmts (List.Subset.refl _) (List.Subset.refl _)
  have htraced := hprogram (s.machine setting program.scope file) rfl hs
  unfold execute
  cases hr : Eval.program setting.fuel program.stmts (s.machine setting program.scope file) with
  | done _ m =>
    rw [hr] at htraced
    exact ⟨htraced.2.2, by simp [Ending.errors]⟩
  | fault d m =>
    rw [hr] at htraced
    refine ⟨htraced.2, fun d hd => ?_⟩
    rw [List.mem_singleton.1 hd]
    exact htraced.1
  | exhausted => exact ⟨hs, by simp [Ending.errors]⟩

theorem traceable_append (hs : s.Traceable) (text : List Char) :
    Traceable { s with sources := s.sources ++ [text] } :=
  Store.Sourced.append hs [text]

theorem traceable_run (hs : s.Traceable) (setting : Setting) (source : List Char) :
    (s.run setting source).1.Traceable := by
  have hs' := traceable_append hs (Text.normalizeNewlines source)
  unfold run
  dsimp only
  split
  · exact hs'
  · rename_i program hprogram
    exact (traced_execute hs' setting (part_of_compile hprogram s.sources)).1

theorem traceable_after (runs : List (Setting × List Char)) : (after runs).Traceable :=
  after_induction (p := Traceable) Store.sourced_initial
    (fun _ setting source hs => traceable_run hs setting source) runs

/-- A diagnostic of a run is either one of the text of the run, found before anything ran, or a fault
that running the program of the text has led to. -/
theorem errors_run (hs : s.Traceable) (setting : Setting) (source : List Char) {d : Diagnostic}
    (hd : d ∈ (s.run setting source).2.ending.errors) :
    (∃ p, Preliminary (Text.normalizeNewlines source) p ∧ d = p.inFile s.sources.length) ∨
      ∃ program, compile s.globals (Text.normalizeNewlines source) = .ok program ∧
        Backtrace (s.sources ++ [Text.normalizeNewlines source])
          ⟨program.scope, s.sources.length, 0⟩ program.stmts d := by
  unfold run at hd
  dsimp only at hd
  split at hd
  · rename_i errors herrors
    obtain ⟨p, hp, rfl⟩ := List.mem_map.1 hd
    exact .inl ⟨p, errors_of_compile herrors p hp, rfl⟩
  · rename_i program hprogram
    refine .inr ⟨program, hprogram, ?_⟩
    exact (traced_execute (traceable_append hs _) setting (part_of_compile hprogram s.sources)).2 d hd

theorem cause_of_preliminary {text : List Char} {p : Diagnostic} (hp : Preliminary text p)
    (file : Nat) : ¬ (p.inFile file).cause.isRuntime := by
  show ¬ p.cause.isRuntime
  rw [hp.cause]
  exact Bool.false_ne_true

/-- Where a diagnostic of a run points, and where it comes from. -/
theorem attribution (hs : s.Traceable) (setting : Setting) (source : List Char) {d : Diagnostic}
    (hd : d ∈ (s.run setting source).2.ending.errors) :
    ∃ k text, d.file = some k ∧
      (s.sources ++ [Text.normalizeNewlines source])[k]? = some text ∧
      Located text d.line d.place d.span ∧
      (d.cause.isRuntime = false → k = s.sources.length) ∧
      (d.cause.isRuntime → ∃ program,
        compile s.globals (Text.normalizeNewlines source) = .ok program ∧
        Backtrace (s.sources ++ [Text.normalizeNewlines source])
          ⟨program.scope, s.sources.length, 0⟩ program.stmts d) := by
  rcases errors_run hs setting source hd with ⟨p, hp, rfl⟩ | ⟨program, hprogram, htrace⟩
  · refine ⟨s.sources.length, Text.normalizeNewlines source, ?_, List.getElem?_concat_length,
      hp.located, fun _ => rfl, fun hcause => absurd hcause (cause_of_preliminary hp _)⟩
    rw [Diagnostic.inFile, hp.file]
    rfl
  · -- the end of the backtrace tells the text; the run itself only where no call has led elsewhere
    obtain ⟨k, text, hfile, htext, hlocated⟩ := htrace.located (part_of_compile hprogram s.sources)
    refine ⟨k, text, hfile, htext, hlocated, fun hcause => ?_, fun _ => ⟨program, hprogram, htrace⟩⟩
    rw [htrace.isRuntime] at hcause
    cases hcause

/-! ### Reports -/

/-- A diagnostic that lies within its text is reported in full. -/
theorem entry_of_located {sources : List (List Char)} {d : Diagnostic} {k : Nat} {text : List Char}
    (hfile : d.file = some k) (htext : sources[k]? = some text)
    (h : Located text d.line d.place d.span) : Report.entry sources d = Report.full text d := by
  obtain ⟨before, covered, after, rfl, hspan, -⟩ := h
  have hfits : d.span.stop ≤ Text.size (before ++ covered ++ after) := by
    rw [hspan]
    simp only [Text.size_append]
    omega
  rw [Report.entry, hfile, Option.getD_some, htext]
  exact if_pos hfits

/-- Whatever has run before in a session: every diagnostic that a run returns names a text of the
session, points at something in it, and is reported in full, then and later. If it was found before
anything ran, that text is the one of the run. If not, a backtrace leads from the program of the run
to the code that raised it, and the text is the one of that code. -/
theorem errors_point (runs : List (Setting × List Char)) (setting : Setting)
    (source : List Char) :
    ((after runs).run setting source).1.sources =
        (runs.map (·.2) ++ [source]).map Text.normalizeNewlines ∧
      ∀ d ∈ ((after runs).run setting source).2.ending.errors, ∃ k text,
        d.file = some k ∧ k ≤ runs.length ∧
        ((after runs).run setting source).1.sources[k]? = some text ∧
        Located text d.line d.place d.span ∧
        (d.cause.isRuntime = false → k = runs.length) ∧
        (d.cause.isRuntime → ∃ program,
          compile (after runs).globals (Text.normalizeNewlines source) = .ok program ∧
          Backtrace ((after runs).run setting source).1.sources ⟨program.scope, runs.length, 0⟩
            program.stmts d) ∧
        ∀ more, Report.entry (((after runs).run setting source).1.sources ++ more) d =
          Report.full text d := by
  have hlength : (after runs).sources.length = runs.length := by simp [sources_after]
  rw [sources_run]
  refine ⟨by simp [sources_after], fun d hd => ?_⟩
  obtain ⟨k, text, hfile, htext, hlocated, hbefore, hruntime⟩ :=
    attribution (traceable_after runs) setting source hd
  rw [hlength] at hbefore hruntime
  have hk := (List.getElem?_eq_some_iff.1 htext).1
  refine ⟨k, text, hfile, ?_, htext, hlocated, hbefore, hruntime, fun more => ?_⟩
  · rw [List.length_append, hlength, List.length_singleton] at hk
    omega
  · refine entry_of_located hfile ?_ hlocated
    rw [List.getElem?_append_left hk, htext]

end Offside.Session
