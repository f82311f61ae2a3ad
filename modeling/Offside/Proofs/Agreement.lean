import Offside.Proofs.Compiling
import Offside.Proofs.Lockstep.Scopes
import Offside.Proofs.Renaming

/-!
# Programs find their names

The analysis of scopes settles before a program runs which frame binds each name, and running the
program bears it out: no run of a session ever faults because a name is not bound where it is looked
for, or is bound already where it is declared, and no statement of a program returns.

This is a property of one run, shown by putting a run next to itself. What corresponds to itself is
then bound where the analysis says. Between runs it is enough that the store corresponds to itself,
and every run keeps that, however it ends.

* `Lockstep.identity`: the pairing of a run with itself;
* `Store.Steady`: stores that correspond to themselves;
* `Lockstep.StoreAlike.of_identity`: such stores in pairings that allow more;
* `Session.execute_of_resultAlike`, `Session.execute_eq`: the transcripts of corresponding results;
* `Session.steady_after`: the session after source texts have run is steady.
-/

namespace Offside

open Lockstep

/-- A run next to itself. -/
def Lockstep.identity : Pairing where
  site k k' t t' := k = k' ∧ t = t'
  names := Eq
  frames := Eq
  ahead := 0
  sink := Eq
  frames_fresh _ := rfl
  sink_writeLine _ h := by subst h; exact ⟨rfl, rfl⟩

/-! ### Transcripts -/

/-- An end with its diagnostics replaced. -/
def Ending.mapErrors (f : Diagnostic → Diagnostic) : Ending → Ending
  | .failure errors => .failure (errors.map f)
  | ending => ending

/-- A transcript with its diagnostics replaced. -/
def Transcript.mapErrors (f : Diagnostic → Diagnostic) (t : Transcript) : Transcript :=
  { t with ending := t.ending.mapErrors f }

@[simp] theorem Transcript.mapErrors_id (t : Transcript) : t.mapErrors id = t := by
  obtain ⟨output, ending⟩ := t
  cases ending <;> simp [mapErrors, Ending.mapErrors]

/-! ### Stores that correspond to themselves -/

/-- The frame of the global variables is there, and every variable corresponds to itself. -/
def Store.Steady (s : Store) : Prop :=
  Store.globals < s.frames.size ∧ ∃ W, StoreAlike identity W s s

/-- Whatever allows each name to correspond to itself, and each token of a function to itself, allows
the function to. -/
theorem Lockstep.ValueAlike.of_identity {P : Pairing} (hnames : ∀ n, P.names n n) {W : World}
    {s : Store} {v : Value} (h : ValueAlike identity W s s v v)
    (hsite : ∀ c, v = .function c → ∀ t, P.site c.file c.file t t) : ValueAlike P W s s v v := by
  cases v with
  | function c =>
    obtain ⟨hid, hname, V, V₁, V₂, hlinked, hparams, hbody⟩ := h
    have hsame : ∀ {n n' : String}, identity.names n n' → P.names n n' := by
      rintro n _ rfl
      exact hnames n
    have hreplaces : Replaces identity P ⟨c.scope, c.file⟩ ⟨c.scope, c.file⟩ ⟨c.scope, c.file⟩ id
        (Code.stmts c.body).marks := by
      refine ⟨hsame, ?_, fun _ => rfl, fun _ _ _ => id⟩
      rintro t _ ⟨-, rfl⟩
      exact hsite c rfl t
    have hbody' := hbody.replace hreplaces
    rw [Code.mapTokens_id] at hbody'
    exact ⟨hid, hname, V, V₁, V₂, hlinked, hparams.imp hsame, hbody'⟩
  | _ => exact h

/-- A variable corresponds to itself, and so does its value. -/
theorem Lockstep.StoreAlike.value_self {W : World} {s : Store} (h : StoreAlike identity W s s)
    {a b : Location} (hab : W a b) :
    a = b ∧ ∃ v, s.value? a = some v ∧ ValueAlike identity W s s v v := by
  obtain rfl : a = b := Prod.ext (h.allowed a b hab).1 (h.allowed a b hab).2
  obtain ⟨v, v', hv, hv', halike⟩ := h.values a a hab
  obtain rfl : v = v' := Option.some.inj (hv.symm.trans hv')
  exact ⟨rfl, v, hv, halike⟩

/-- Whatever allows each thing to correspond to itself, and each token of the functions in a store to
itself, allows the store to. -/
theorem Lockstep.StoreAlike.of_identity {P : Pairing} (hnames : ∀ n, P.names n n)
    (hframes : ∀ i, P.frames i i) (hahead : P.ahead = 0) {W : World} {s : Store}
    (h : StoreAlike identity W s s)
    (hsite : ∀ a c, s.value? a = some (.function c) → ∀ t, P.site c.file c.file t t) :
    StoreAlike P W s s where
  size := by rw [h.size, hahead]; rfl
  allowed a b hab := by
    obtain ⟨rfl, -⟩ := h.value_self hab
    exact ⟨hframes a.1, hnames a.2⟩
  unique := h.unique
  values a b hab := by
    obtain ⟨rfl, v, hv, halike⟩ := h.value_self hab
    refine ⟨v, v, hv, hv, halike.of_identity hnames fun c hc => hsite a c ?_⟩
    rw [hv, hc]
  total := h.total

/-- Before anything has run only native functions are bound. -/
theorem Store.native_of_initial {a : Location} {v : Value} (h : initial.value? a = some v) :
    ∃ n, v = .native n := by
  obtain ⟨frame, name⟩ := a
  obtain ⟨f, hf, hget⟩ := Option.bind_eq_some_iff.1 h
  obtain ⟨hlt, rfl⟩ := Array.getElem?_eq_some_iff.1 hf
  obtain rfl : frame = 0 := Nat.lt_one_iff.1 hlt
  obtain ⟨before, after, hsplit, -⟩ := List.lookup_eq_some_iff.1 hget
  have hmem : (name, v) ∈ Native.all.map fun n => (n.name, Value.native n) := by
    rw [show Native.all.map (fun n => (n.name, Value.native n)) = _ from hsplit]
    simp
  obtain ⟨n, -, hn⟩ := List.mem_map.1 hmem
  exact ⟨n, (congrArg Prod.snd hn).symm⟩

theorem Store.steady_initial : Store.initial.Steady := by
  refine ⟨by decide, fun a b => a = b ∧ (initial.value? a).isSome, rfl, ?_, ?_, ?_, ?_⟩
  · rintro a b ⟨rfl, -⟩
    exact ⟨rfl, rfl⟩
  · rintro a b a' b' ⟨rfl, -⟩ ⟨rfl, -⟩
    rfl
  · rintro a b ⟨rfl, ha⟩
    obtain ⟨v, hv⟩ := Option.isSome_iff_exists.1 ha
    refine ⟨v, v, hv, hv, ValueAlike.refl_of ?_⟩
    rintro c rfl
    exact absurd (native_of_initial hv) (by simp)
  · intro a ha
    exact ⟨a, rfl, ha⟩

namespace Session

variable {s : Session} (setting : Setting)

/-- The view of a program on the global variables. -/
def globalView (globals : Names) : View := Renaming.view [] (globals.map fun n => (n, n))

@[simp] theorem left_globalView (globals : Names) : (globalView globals).left = globals := by
  simp [globalView, Renaming.view, Function.comp_def]

@[simp] theorem right_globalView (globals : Names) : (globalView globals).right = globals := by
  simp [globalView, Renaming.view, Function.comp_def]

/-- Next to itself, a run starts ready. -/
theorem ready_machine {W : World} (hsize : Store.globals < s.store.frames.size)
    (hstore : StoreAlike identity W s.store s.store) (scope : ScopeMap) (file : Nat) :
    Ready identity ⟨scope, file⟩ ⟨scope, file⟩ W (s.machine setting scope file)
      (s.machine setting scope file) Store.globals Store.globals (globalView s.globals) := by
  refine ⟨⟨hstore, rfl, rfl, rfl, rfl, rfl⟩, rfl, rfl, hsize, hsize, rfl, ?_, ?_, ?_⟩
  · simp [globals, machine]
  · simp [globals, machine]
  · intro l hl
    obtain ⟨n, hn, rfl⟩ : ∃ n ∈ s.globals, ((0, n), (0, n)) = l := by
      simpa [globalView, Renaming.view, Renaming.links] using hl
    obtain ⟨b, hb⟩ := hstore.total (Store.globals, n)
      ((s.store.value?_isSome_iff Store.globals n).2 hn)
    obtain ⟨rfl, -⟩ := hstore.value_self hb
    exact ⟨Store.globals, Store.globals, rfl, rfl, hb⟩

theorem overlooks_globalView (globals : Names) :
    Overlooks (globalView globals) [] globals [] globals := by
  refine ⟨left_globalView globals, right_globalView globals, ?_⟩
  intro n d d' _ hd hd'
  obtain ⟨hn, rfl⟩ := Scope.distance?_singleton hd
  obtain ⟨-, rfl⟩ := Scope.distance?_singleton hd'
  simpa [globalView, Renaming.view, Renaming.links] using hn

/-- A program that compiles does the same as itself. -/
theorem alike_of_compile {globals : Names} {text : List Char} {program : Compiled}
    (h : compile globals text = .ok program) (file : Nat) :
    ∃ V, Alike identity ⟨program.scope, file⟩ ⟨program.scope, file⟩ false (globalView globals)
      (.stmts program.stmts) (.stmts program.stmts) V := by
  have hrecorded := recorded_of_compile h
  exact alike_of_recorded (P := identity) (fun _ => ⟨rfl, rfl⟩) (fun _ => rfl)
    (overlooks_globalView globals) hrecorded hrecorded

/-! ### Runs -/

/-- Runs with results that correspond write the same and end the same, as far as faults that
correspond are the same. -/
theorem execute_of_resultAlike {P : Pairing} {f : Diagnostic → Diagnostic}
    (hsink : ∀ {k k' : Sink}, P.sink k k' → k'.text = k.text)
    (hfault : ∀ {d d' : Diagnostic}, FaultAlike P d d' → d' = f d) {s s' : Session}
    {setting setting' : Setting} {program program' : Compiled} {file file' : Nat} {W : World}
    {Q : World → Machine → Machine → Unit → Unit → Prop}
    (h : ResultAlike P W Q
      (Eval.program setting.fuel program.stmts (s.machine setting program.scope file))
      (Eval.program setting'.fuel program'.stmts (s'.machine setting' program'.scope file'))) :
    (s'.execute setting' program' file').2 = (s.execute setting program file).2.mapErrors f := by
  unfold execute
  cases hr : Eval.program setting.fuel program.stmts (s.machine setting program.scope file) <;>
    cases hr' : Eval.program setting'.fuel program'.stmts
      (s'.machine setting' program'.scope file') <;>
    rw [hr, hr'] at h <;> try exact h.elim
  · obtain ⟨W', -, hm, -⟩ := h
    exact congrArg (Transcript.mk · .success) (hsink hm.sink)
  · obtain ⟨W', -, hm, hd⟩ := h
    exact congrArg₂ (Transcript.mk · <| .failure [·]) (hsink hm.sink) (hfault hd)
  · rfl

/-- Programs that do the same write the same and end the same, as far as faults that correspond are
the same. -/
theorem execute_of_alike {P : Pairing} {f : Diagnostic → Diagnostic}
    (hsink : ∀ {k k' : Sink}, P.sink k k' → k'.text = k.text)
    (hfault : ∀ {d d' : Diagnostic}, FaultAlike P d d' → d' = f d) {s s' : Session}
    (program program' : Compiled) {file file' : Nat} {W : World} {V V₁ : View}
    (hready : Ready P ⟨program.scope, file⟩ ⟨program'.scope, file'⟩ W
      (s.machine setting program.scope file) (s'.machine setting program'.scope file')
      Store.globals Store.globals V)
    (h : Alike P ⟨program.scope, file⟩ ⟨program'.scope, file'⟩ false V (.stmts program.stmts)
      (.stmts program'.stmts) V₁) :
    (s'.execute setting program' file').2 = (s.execute setting program file).2.mapErrors f :=
  execute_of_resultAlike hsink hfault (program_alike setting.fuel hready h)

/-- Runs with results that correspond have the same transcript, where only equal outputs and equal
tokens correspond. -/
theorem execute_eq {P : Pairing} (hsink : ∀ {k k' : Sink}, P.sink k k' → k = k')
    (hsite : ∀ {i j : Nat} {t t' : Token}, P.site i j t t' → i = j ∧ t = t') {s s' : Session}
    {setting setting' : Setting} {program program' : Compiled} {file file' : Nat} {W : World}
    {Q : World → Machine → Machine → Unit → Unit → Prop}
    (h : ResultAlike P W Q
      (Eval.program setting.fuel program.stmts (s.machine setting program.scope file))
      (Eval.program setting'.fuel program'.stmts (s'.machine setting' program'.scope file'))) :
    (s'.execute setting' program' file').2 = (s.execute setting program file).2 := by
  have hfault : ∀ {d d' : Diagnostic}, FaultAlike P d d' → d' = id d := by
    rintro d d' ⟨i, j, t, t', cause, ht, -, rfl, rfl⟩
    obtain ⟨rfl, rfl⟩ := hsite ht
    rfl
  have hsame := execute_of_resultAlike (fun hk => congrArg Sink.text (hsink hk).symm) hfault h
  rwa [Transcript.mapErrors_id] at hsame

/-- A run of a program from a steady store leaves a steady store, and does not fault over a name. -/
theorem steady_execute {text : List Char} {program : Compiled} (hs : s.store.Steady)
    (h : compile s.globals text = .ok program) (file : Nat) :
    (s.execute setting program file).1.store.Steady ∧
      ∀ d ∈ (s.execute setting program file).2.ending.errors, d.cause.isNaming = false := by
  obtain ⟨hsize, W, hstore⟩ := hs
  obtain ⟨V, halike⟩ := alike_of_compile h file
  have hready := ready_machine setting hsize hstore program.scope file
  have hresult := program_alike setting.fuel hready halike
  have hmoves := Eval.moves_program setting.fuel program.stmts
    (s.machine setting program.scope file)
  unfold execute
  cases hr : Eval.program setting.fuel program.stmts (s.machine setting program.scope file) with
  | done _ m =>
    rw [hr] at hresult hmoves
    obtain ⟨W', -, hm, -⟩ := hresult
    exact ⟨⟨Nat.lt_of_lt_of_le hsize hmoves.store.size, W', hm.store⟩, by simp [Ending.errors]⟩
  | fault d m =>
    rw [hr] at hresult hmoves
    obtain ⟨W', -, hm, k, k', t, t', cause, -, hcause, rfl, -⟩ := hresult
    refine ⟨⟨Nat.lt_of_lt_of_le hsize hmoves.store.size, W', hm.store⟩, fun d hd => ?_⟩
    rw [List.mem_singleton.1 hd]
    exact hcause
  | exhausted => exact ⟨⟨hsize, W, hstore⟩, by simp [Ending.errors]⟩

theorem isNaming_of_not_isRuntime {cause : Cause} (h : cause.isRuntime = false) :
    cause.isNaming = false := by
  cases cause <;> first | rfl | cases h

/-- So does a run of a source text, whether it compiles or not. -/
theorem steady_run (hs : s.store.Steady) (source : List Char) :
    (s.run setting source).1.store.Steady ∧
      ∀ d ∈ (s.run setting source).2.ending.errors, d.cause.isNaming = false := by
  unfold run
  simp only
  split
  · rename_i errors herrors
    refine ⟨hs, fun d hd => ?_⟩
    obtain ⟨d, hmem, rfl⟩ := List.mem_map.1 hd
    exact isNaming_of_not_isRuntime (errors_of_compile herrors d hmem).cause
  · rename_i program hprogram
    exact steady_execute setting
      (s := { s with sources := s.sources ++ [Text.normalizeNewlines source] }) hs hprogram
      s.sources.length

theorem steady_after (runs : List (Setting × List Char)) : (after runs).store.Steady :=
  after_induction (p := fun s => s.store.Steady) Store.steady_initial
    (fun _ setting source hs => (steady_run setting hs source).1) runs

/-! ### Returns -/

theorem alike_append {P : Pairing} {o o' : Origin} {V W : View} {before ss ss' : List Stmt}
    (h : Alike P o o' false V (.stmts (before ++ ss)) (.stmts (before ++ ss')) W) :
    ∃ V₁, Alike P o o' false V (.stmts before) (.stmts before) V₁ ∧
      Alike P o o' false V₁ (.stmts ss) (.stmts ss') W := by
  induction before generalizing V with
  | nil => exact ⟨V, .noStmts, h⟩
  | cons s before ih =>
    cases h with
    | moreStmts hs hss =>
      obtain ⟨V₁, hbefore, hss⟩ := ih hss
      exact ⟨V₁, .moreStmts hs hbefore, hss⟩

/-- A statement of a program that compiles never ends with a return. -/
theorem not_returned {text : List Char} {program : Compiled} (hs : s.store.Steady)
    (h : compile s.globals text = .ok program) (file : Nat) {before after : List Stmt} {stmt : Stmt}
    (hsplit : program.stmts = before ++ stmt :: after) {m m' : Machine} {v : Value}
    (hbefore : Eval.program setting.fuel before (s.machine setting program.scope file) = .done () m) :
    Eval.stmt setting.fuel Store.globals stmt m ≠ .done (.returned v) m' := by
  intro hreturned
  obtain ⟨hsize, W, hstore⟩ := hs
  obtain ⟨V, halike⟩ := alike_of_compile h file
  rw [hsplit] at halike
  obtain ⟨V₁, hbefore₁, hrest⟩ := alike_append halike
  have hready := ready_machine setting hsize hstore program.scope file
  have hresult := program_alike setting.fuel hready hbefore₁
  rw [hbefore] at hresult
  obtain ⟨W', -, -, hready⟩ := hresult
  cases hrest with
  | moreStmts hstmt _ =>
    have hflow := (matches_eval identity setting.fuel).exec_alike hready hstmt
    exact hflow.not_returned v m' hreturned

/-- Whatever has run before in a session, and however that ended: a run never faults because a name is
not bound where it is looked for, or is bound already where it is declared, and no statement of a
program that compiles ends with a return, wherever in the program it stands. -/
theorem every_name_bound (runs : List (Setting × List Char)) (setting : Setting)
    (source : List Char) :
    (∀ d ∈ ((after runs).run setting source).2.ending.errors, ∀ name,
      d.cause ≠ .runtime (.notDefined name) ∧ d.cause ≠ .runtime (.alreadyDefined name)) ∧
    ∀ program, compile (after runs).globals (Text.normalizeNewlines source) = .ok program →
      ∀ before stmt rest, program.stmts = before ++ stmt :: rest →
        ∀ m, Eval.program setting.fuel before ((after runs).machine setting program.scope
            (after runs).sources.length) = .done () m →
          ∀ v m', Eval.stmt setting.fuel Store.globals stmt m ≠ .done (.returned v) m' := by
  have hsteady := steady_after runs
  constructor
  · intro d hd name
    have hnaming := (steady_run setting hsteady source).2 d hd
    constructor <;>
    · intro hcause
      rw [hcause] at hnaming
      cases hnaming
  · intro program hprogram before stmt rest hsplit m hbefore v m'
    exact not_returned setting hsteady hprogram _ hsplit hbefore

end Session

end Offside
