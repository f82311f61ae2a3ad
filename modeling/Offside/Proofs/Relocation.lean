import Offside.Proofs.Agreement
import Offside.Proofs.Attribution

/-!
# Code in another place

The number of a source unit and the position of code in it reach a running program only through the
diagnostics of its faults. Two sessions whose functions differ in nothing else go on to do the same:
every further text writes the same output in both and ends the same way, with its diagnostics moved.

* `Shift`: how far tokens are moved within a text;
* `Relocation`: where the source units of one session are found in another;
* `Lockstep.relocating`: the pairing of a run with one whose code is relocated;
* `Session.Follows`: sessions that correspond but for a relocation;
* `Session.follows_run`, `Session.transcripts_follow`: what a run and a sequence of runs do in them.
-/

namespace Offside

open Lockstep

/-! ### Positions -/

/-- How far something is moved within a text. -/
structure Shift where
  lines : Nat
  bytes : Nat
  deriving DecidableEq, Repr

/-- Nothing is moved. -/
def Shift.zero : Shift := ⟨0, 0⟩

/-- A range of bytes, moved. -/
def Span.shift (s : Span) (σ : Shift) : Span := ⟨s.start + σ.bytes, s.stop + σ.bytes⟩

/-- A token, moved. -/
def Token.shift (σ : Shift) (t : Token) : Token :=
  { t with line := t.line + σ.lines, span := t.span.shift σ }

/-- A diagnostic, moved. -/
def Diagnostic.shift (d : Diagnostic) (σ : Shift) : Diagnostic :=
  { d with line := d.line + σ.lines, span := d.span.shift σ }

@[simp] theorem Token.shift_zero : Token.shift .zero = id := rfl

@[simp] theorem Diagnostic.shift_zero (d : Diagnostic) : d.shift .zero = d := rfl

theorem Token.diagnose_shift (σ : Shift) (t : Token) (cause : Cause) :
    (t.shift σ).diagnose cause = (t.diagnose cause).shift σ := rfl

/-- Where source units are found: their numbers, and how far their texts are moved. -/
structure Relocation where
  file : Nat → Nat
  shift : Nat → Shift

/-- A source unit stays where it is. -/
def Relocation.Fixes (R : Relocation) (k : Nat) : Prop := R.file k = k ∧ R.shift k = .zero

/-- A diagnostic that points into the unit where it is found. -/
def Diagnostic.relocate (R : Relocation) (d : Diagnostic) : Diagnostic :=
  match d.file with
  | none => d
  | some k => { d.shift (R.shift k) with file := some (R.file k) }

variable {R : Relocation}

theorem Diagnostic.relocate_inFile {d : Diagnostic} (hd : d.file = none) (k : Nat) :
    (d.inFile k).relocate R = (d.shift (R.shift k)).inFile (R.file k) := by
  simp [Diagnostic.relocate, Diagnostic.inFile, Diagnostic.shift, hd]

/-! ### Output -/

/-- An output next to one that `earlier` had been written to before. Both can be written to as long as
each other. -/
structure Sink.Extends (earlier : String) (s s' : Sink) : Prop where
  text : s'.text = earlier ++ s.text
  limit : s'.limit = s.limit
  lines : s'.lines = s.lines ∨ s.limit = none

theorem Sink.extends_fresh (limit : Option Nat) : Sink.Extends "" (fresh limit) (fresh limit) :=
  ⟨rfl, rfl, .inl rfl⟩

namespace Sink.Extends

variable {earlier : String} {s s' : Sink}

theorem isOpen (h : Extends earlier s s') : s'.isOpen = s.isOpen := by
  unfold Sink.isOpen
  rw [h.limit]
  rcases h.lines with hlines | hlimit
  · rw [hlines]
  · rw [hlimit]

theorem write? (h : Extends earlier s s') (piece : String) :
    s.write? piece = none ∧ s'.write? piece = none ∨
      ∃ t t', s.write? piece = some t ∧ s'.write? piece = some t' ∧ Extends earlier t t' := by
  unfold Sink.write?
  rw [h.isOpen]
  split
  · exact .inr ⟨s, s', rfl, rfl, h⟩
  · split
    · refine .inr ⟨_, _, rfl, rfl, ?_, h.limit, ?_⟩
      · simp [h.text, String.append_assoc]
      · exact h.lines.imp (congrArg (· + _)) id
    · exact .inl ⟨rfl, rfl⟩

theorem writeLine (h : Extends earlier s s') (text : String) :
    Extends earlier (s.writeLine text).1 (s'.writeLine text).1 ∧
      (s.writeLine text).2 = (s'.writeLine text).2 := by
  unfold Sink.writeLine
  rcases h.write? text with ⟨hs, hs'⟩ | ⟨t, t', hs, hs', ht⟩
  · rw [hs, hs']
    exact ⟨h, rfl⟩
  · rw [hs, hs']
    rcases ht.write? "\n" with ⟨hs, hs'⟩ | ⟨u, u', hs, hs', hu⟩
    · simp only [hs, hs']
      exact ⟨ht, trivial⟩
    · simp only [hs, hs']
      exact ⟨hu, trivial⟩

end Sink.Extends

namespace Lockstep

/-- A run next to one whose code is relocated and which starts after `earlier` has been written. -/
def relocating (R : Relocation) (earlier : String) : Pairing where
  site k k' t t' := k' = R.file k ∧ t' = t.shift (R.shift k)
  names := Eq
  frames := Eq
  ahead := 0
  sink := Sink.Extends earlier
  frames_fresh _ := rfl
  sink_writeLine text h := h.writeLine text

variable {earlier : String}

/-- Stores do not depend on what has been written. -/
theorem relocating_permits (R : Relocation) (earlier earlier' : String) :
    (relocating R earlier).Permits (relocating R earlier') :=
  ⟨id, id, id, rfl⟩

theorem eq_relocate_of_faultAlike {d d' : Diagnostic} (h : FaultAlike (relocating R earlier) d d') :
    d' = d.relocate R := by
  obtain ⟨k, k', t, t', cause, ⟨rfl, rfl⟩, -, rfl, rfl⟩ := h
  rw [Diagnostic.relocate_inFile rfl, Token.diagnose_shift]

theorem eq_of_relocating {W : World} {s s' : Store} (h : StoreAlike (relocating R earlier) W s s')
    {a b : Location} (hab : W a b) : a = b :=
  Prod.ext (h.allowed a b hab).1 (h.allowed a b hab).2

/-! ### Code that is relocated -/

/-- Code of the same or of another place that does the same as itself does the same as the code
relocated, as long as the distances of its references can be looked up where it is found. -/
theorem Alike.relocate {scope scope' : ScopeMap} {file : Nat} {b : Bool} {V W : View} {c c' : Code}
    (h : Alike identity ⟨scope, file⟩ ⟨scope, file⟩ b V c c' W)
    (hscope : ∀ t ∈ references c'.marks, ∀ d, scope[t.span]? = some d →
      scope'[(t.shift (R.shift file)).span]? = some d) :
    Alike (relocating R earlier) ⟨scope, file⟩ ⟨scope', R.file file⟩ b V c
      (c'.mapTokens (Token.shift (R.shift file))) W := by
  refine h.replace ⟨id, ?_, fun _ => rfl, hscope⟩
  rintro t t' ⟨-, rfl⟩
  exact ⟨rfl, rfl⟩

/-- A store whose functions all stay in place corresponds to itself under a relocation. -/
theorem StoreAlike.relocate {W : World} {s : Store} (h : StoreAlike identity W s s)
    (hfixes : ∀ a c, s.value? a = some (.function c) → R.Fixes c.file) :
    StoreAlike (relocating R earlier) W s s := by
  refine h.of_identity (fun _ => rfl) (fun _ => rfl) rfl fun a c hc t => ?_
  obtain ⟨hfile, hshift⟩ := hfixes a c hc
  exact ⟨hfile.symm, by rw [hshift]; rfl⟩

/-! ### Runs -/

/-- Machines that correspond but for a relocation, with the same global names. -/
structure Follows (R : Relocation) (earlier : String) (m m' : Machine) : Prop where
  size : Store.globals < m.store.frames.size
  alike : ∃ W, MachineAlike (relocating R earlier) W m m'
  names : m'.store.names Store.globals = m.store.names Store.globals

/-- Results that correspond but for a relocation. -/
def ResultFollows (R : Relocation) (earlier : String) : Result Unit → Result Unit → Prop
  | .done _ m, .done _ m' => Follows R earlier m m'
  | .fault d m, .fault d' m' => d' = d.relocate R ∧ Follows R earlier m m'
  | .exhausted, .exhausted => True
  | _, _ => False

/-- Where corresponding variables have the same name, the two sides of a view bind the same names. -/
theorem Alike.names_eq {P : Pairing} (hP : ∀ {n n'}, P.names n n' → n = n') {o o' : Origin} {b : Bool}
    {V V₁ : View} {s s' : Stmt} (h : Alike P o o' b V (.stmt s) (.stmt s') V₁)
    (hV : V.left = V.right) : V₁.left = V₁.right := by
  cases h with
  | create _ _ hname _ => exact congrArg₂ _ (hP hname) hV
  | define _ _ hname _ _ _ => exact congrArg₂ _ (hP hname) hV
  | _ => exact hV

/-- A program and the same program relocated do the same. -/
theorem program_follows {o o' : Origin} {W : World} {m m' : Machine} {V V₁ : View} (fuel : Nat)
    {ss ss' : List Stmt} (h : Ready (relocating R earlier) o o' W m m' Store.globals Store.globals V)
    (hV : V.left = V.right)
    (hss : Alike (relocating R earlier) o o' false V (.stmts ss) (.stmts ss') V₁) :
    ResultFollows R earlier (Eval.program fuel ss m) (Eval.program fuel ss' m') := by
  induction ss generalizing ss' V W m m' with
  | nil =>
    cases hss
    exact ⟨h.realizes.exists_left, ⟨W, h.machine⟩,
      by rw [h.realizes.left, h.realizes.right, hV]⟩
  | cons s ss ih =>
    cases hss with
    | @moreStmts _ _ _ _ _ s' _ ss' hs hss =>
      have hstep := (matches_eval (relocating R earlier) fuel).exec_alike h hs
      have hk := Eval.moves_stmt fuel Store.globals s m
      have hk' := Eval.moves_stmt fuel Store.globals s' m'
      have hstops := Eval.stops_stmt fuel Store.globals s m
      have hstops' := Eval.stops_stmt fuel Store.globals s' m'
      rw [Eval.program_cons, Eval.program_cons]
      cases hr : Eval.stmt fuel Store.globals s m <;>
        cases hr' : Eval.stmt fuel Store.globals s' m' <;> rw [hr, hr'] at hstep <;>
        try exact hstep.elim
      · rw [hr] at hk
        rw [hr'] at hk'
        rw [Run.bind_of_done hr, Run.bind_of_done hr']
        obtain ⟨W₁, -, hm, hflow⟩ := hstep
        rename_i flow _ flow' _
        cases flow <;> cases flow' <;> try exact hflow.elim
        · exact ih (h.after hm hk hk' hflow) (hs.names_eq id hV) hss
        · exact absurd hflow.1 (by simp)
      · -- neither side has bound a name where the statement stopped
        rw [hr] at hk hstops
        rw [hr'] at hstops'
        rw [Run.bind_of_fault hr, Run.bind_of_fault hr']
        obtain ⟨W₁, -, hm, hfault⟩ := hstep
        refine ⟨eq_relocate_of_faultAlike hfault,
          Nat.lt_of_lt_of_le h.realizes.exists_left hk.store.size, ⟨W₁, hm⟩, ?_⟩
        rw [hstops.store.names _ h.realizes.exists_left (by simp),
          hstops'.store.names _ h.realizes.exists_right (by simp), h.realizes.left,
          h.realizes.right, hV]
      · rw [Run.bind_of_exhausted hr, Run.bind_of_exhausted hr']
        exact trivial

end Lockstep

namespace Session

/-! ### Sessions -/

/-- Sessions that correspond but for a relocation, with the same global names. -/
structure Follows (R : Relocation) (s s' : Session) : Prop where
  size : Store.globals < s.store.frames.size
  store : ∃ W, StoreAlike (relocating R "") W s.store s'.store
  globals : s'.globals = s.globals
  definitions : s.definitions = s'.definitions
  readings : s.readings = s'.readings

variable {s s' : Session} {earlier : String}

/-- A function in the store was defined by one of the texts. -/
theorem file_lt_of_traceable (htrace : s.Traceable) {a : Location} {c : Closure}
    (hc : s.store.value? a = some (.function c)) : c.file < s.sources.length := by
  have hget : s.store.getAt? a.1 0 a.2 = some (.function c) := hc
  obtain ⟨text, -, htext, -⟩ := Store.Sourced.getAt? htrace hget c rfl
  exact (List.getElem?_eq_some_iff.1 htext).1

/-- A session whose texts stay in place corresponds to any with the same functions and values. -/
theorem follows_of_fixes (hs : s.store.Steady) (htrace : s.Traceable)
    (hfixes : ∀ k < s.sources.length, R.Fixes k) (hstore : s'.store = s.store)
    (hdefinitions : s.definitions = s'.definitions) (hreadings : s.readings = s'.readings) :
    Follows R s s' := by
  obtain ⟨hsize, W, halike⟩ := hs
  refine ⟨hsize, ⟨W, ?_⟩, by rw [globals, globals, hstore], hdefinitions, hreadings⟩
  rw [hstore]
  exact halike.relocate fun a c hc => hfixes c.file (file_lt_of_traceable htrace hc)

theorem ready_relocating {setting : Setting} {scope : ScopeMap} {file : Nat} {W : World}
    {m' : Machine} (hsize : Store.globals < s.store.frames.size)
    (hm : MachineAlike (relocating R earlier) W (s.machine setting scope file) m')
    (hnames : m'.store.names Store.globals = s.globals) :
    Ready (relocating R earlier) ⟨scope, file⟩ (origin m') W (s.machine setting scope file) m'
      Store.globals Store.globals (globalView s.globals) := by
  refine ⟨hm, rfl, rfl, hsize, ?_, rfl, by simp [machine, globals], by simpa using hnames, ?_⟩
  · rw [hm.store.size]
    exact hsize
  · intro l hl
    obtain ⟨n, hn, rfl⟩ : ∃ n ∈ s.globals, ((0, n), (0, n)) = l := by
      simpa [globalView, Renaming.view, Renaming.links] using hl
    obtain ⟨b, hb⟩ := hm.store.total (Store.globals, n)
      ((s.store.value?_isSome_iff Store.globals n).2 hn)
    obtain rfl := eq_of_relocating hm.store hb
    exact ⟨Store.globals, Store.globals, rfl, rfl, hb⟩

theorem Follows.machine (h : Follows R s s') (setting : Setting) (scope scope' : ScopeMap)
    (file file' : Nat) :
    ∃ W, MachineAlike (relocating R "") W (s.machine setting scope file)
      (s'.machine setting scope' file') := by
  obtain ⟨W, hstore⟩ := h.store
  exact ⟨W, hstore, h.definitions, Sink.extends_fresh _, rfl, h.readings, rfl⟩

/-- What a run leaves behind goes on to correspond. -/
theorem follows_keep {m m' : Machine} (h : Lockstep.Follows R earlier m m') :
    Follows R (s.keep m) (s'.keep m') := by
  obtain ⟨W, hm⟩ := h.alike
  exact ⟨h.size, ⟨W, hm.store.allow (relocating_permits R earlier "")⟩, h.names, hm.definitions,
    hm.readings⟩

theorem text_eq {m m' : Machine} (h : Lockstep.Follows R earlier m m') :
    m'.sink.text = earlier ++ m.sink.text := by
  obtain ⟨W, hm⟩ := h.alike
  exact hm.sink.text

/-- Programs with results that correspond leave sessions and transcripts that do. -/
theorem execute_of_resultFollows {setting : Setting} {program program' : Compiled}
    {file file' : Nat}
    (h : ResultFollows R earlier
      (Eval.program setting.fuel program.stmts (s.machine setting program.scope file))
      (Eval.program setting.fuel program'.stmts (s'.machine setting program'.scope file')))
    (hexhausted : (s.execute setting program file).2.ending = .exhausted →
      earlier = "" ∧ Follows R s s') :
    (s'.execute setting program' file').2 =
        ⟨earlier ++ (s.execute setting program file).2.output,
          (s.execute setting program file).2.ending.mapErrors (·.relocate R)⟩ ∧
      Follows R (s.execute setting program file).1 (s'.execute setting program' file').1 := by
  unfold execute at hexhausted ⊢
  cases hr : Eval.program setting.fuel program.stmts (s.machine setting program.scope file) <;>
    cases hr' : Eval.program setting.fuel program'.stmts
      (s'.machine setting program'.scope file') <;>
    rw [hr, hr'] at h <;> try exact h.elim
  · exact ⟨congrArg (Transcript.mk · .success) (text_eq h), follows_keep h⟩
  · obtain ⟨rfl, hfollows⟩ := h
    exact ⟨congrArg (Transcript.mk · _) (text_eq hfollows), follows_keep hfollows⟩
  · rw [hr] at hexhausted
    obtain ⟨rfl, hfollows⟩ := hexhausted rfl
    exact ⟨rfl, hfollows⟩

theorem follows_execute (h : Follows R s s') (setting : Setting) {text : List Char}
    {program : Compiled} (hcompile : compile s.globals text = .ok program) {file : Nat}
    (hshift : R.shift file = .zero) :
    (s'.execute setting program (R.file file)).2 =
        (s.execute setting program file).2.mapErrors (·.relocate R) ∧
      Follows R (s.execute setting program file).1 (s'.execute setting program (R.file file)).1 := by
  obtain ⟨V, halike⟩ := alike_of_compile hcompile file
  have hmoved : Alike (relocating R "") ⟨program.scope, file⟩ ⟨program.scope, R.file file⟩ false
      (globalView s.globals) (.stmts program.stmts) _ V :=
    halike.relocate fun t _ d hd => by rwa [hshift]
  rw [hshift, Token.shift_zero, Code.mapTokens_id] at hmoved
  obtain ⟨W, hm⟩ := h.machine setting program.scope program.scope file (R.file file)
  have hresult := program_follows setting.fuel (ready_relocating h.size hm h.globals)
    (by simp) hmoved
  simpa [Transcript.mapErrors] using execute_of_resultFollows hresult fun _ => ⟨rfl, h⟩

/-- A text does the same in both sessions, if it gets the numbers that correspond. -/
theorem follows_run (h : Follows R s s') (hfile : R.file s.sources.length = s'.sources.length)
    (hshift : R.shift s.sources.length = .zero) (setting : Setting) (source : List Char) :
    (s'.run setting source).2 = (s.run setting source).2.mapErrors (·.relocate R) ∧
      Follows R (s.run setting source).1 (s'.run setting source).1 := by
  have hs : Follows R { s with sources := s.sources ++ [Text.normalizeNewlines source] }
      { s' with sources := s'.sources ++ [Text.normalizeNewlines source] } := { h with }
  unfold run
  simp only [hs.globals]
  split
  · rename_i errors herrors
    refine ⟨congrArg (Transcript.mk "" <| .failure ·) ?_, hs⟩
    rw [List.map_map]
    refine List.map_congr_left fun d hd => ?_
    rw [Function.comp_apply, Diagnostic.relocate_inFile (errors_of_compile herrors d hd).file,
      hfile, hshift, Diagnostic.shift_zero]
  · rename_i program hprogram
    rw [← hfile]
    exact follows_execute hs setting hprogram hshift

/-! ### Runs one after another -/

/-- The transcripts of source texts that run one after another. -/
def transcripts (s : Session) : List (Setting × List Char) → List Transcript
  | [] => []
  | r :: runs => (s.run r.1 r.2).2 :: (s.run r.1 r.2).1.transcripts runs

/-- Sessions that correspond give the same transcripts ever after. -/
theorem transcripts_follow (runs : List (Setting × List Char)) (h : Follows R s s')
    (hfiles : ∀ i, R.file (s.sources.length + i) = s'.sources.length + i)
    (hshifts : ∀ i, R.shift (s.sources.length + i) = .zero) :
    s'.transcripts runs = (s.transcripts runs).map (·.mapErrors (·.relocate R)) := by
  induction runs generalizing s s' with
  | nil => rfl
  | cons r runs ih =>
    obtain ⟨hsame, hnext⟩ := follows_run h (hfiles 0) (hshifts 0) r.1 r.2
    have hlength : (s.run r.1 r.2).1.sources.length = s.sources.length + 1 := by simp [sources_run]
    have hlength' : (s'.run r.1 r.2).1.sources.length = s'.sources.length + 1 := by
      simp [sources_run]
    rw [transcripts, transcripts, List.map_cons, hsame, ih hnext]
    · intro i
      rw [hlength, hlength', Nat.add_assoc, Nat.add_assoc, hfiles]
    · intro i
      rw [hlength, Nat.add_assoc, hshifts]

end Session

end Offside
