import Offside.Proofs.Accounting

/-!
# The discipline of frames

Whatever runs at a point of a run, and however it ends: the frames there were keep their parents,
every new frame hangs off an earlier one, no variable is lost, and none changes its value but where a
`change` rebinds it. Only declarations add names to a frame there was, each its own name to the frame
it runs in, and only when it completes. So after a run the names of the global variables are those
before it and those that the statements declared that were through.

* `Store.Rooted.exists_ancestor`: the way out from any frame ends at that of the global variables;
* `Point.hole`, `Eval.moves_result`: the frame that what runs at a point may add names to;
* `Point.Disciplined`: what the heap is like after what runs at a point;
* `Eval.names_of_program`, `Eval.program_stops`: the names after a program, and where it stops;
* `Session.heap_discipline`: the discipline at every point of every run.
-/

namespace Offside

open Lockstep (Location)

/-- The way out from a frame ends at the frame of the global variables. -/
theorem Store.Rooted.exists_ancestor {s : Store} (h : s.Rooted) {i : Nat}
    (hi : i < s.frames.size) :
    ∃ d ≤ i, s.ancestor? i d = some Store.globals ∧ s.ancestor? i (d + 1) = none := by
  induction i using Nat.strong_induction_on with
  | h i ih =>
    by_cases hglobals : i = Store.globals
    · subst hglobals
      refine ⟨0, Nat.le_refl _, rfl, ?_⟩
      rw [ancestor?_succ, h.globals]
      rfl
    · obtain ⟨j, hj, hparent⟩ := h.parent i hi hglobals
      obtain ⟨d, hd, hreached, hend⟩ := ih j hj (Nat.lt_trans hj hi)
      refine ⟨d + 1, by omega, ?_, ?_⟩
      · rw [ancestor?_succ, hparent]
        exact hreached
      · rw [ancestor?_succ, hparent]
        exact hend

namespace Eval

open Run

/-! ### Names -/

/-- The frame that what runs at a point may add names to. -/
def Point.hole (p : Point) : Option Nat :=
  match p.activity with
  | .stmt s => s.declared?.map fun _ => p.frame
  | .stmts _ => some p.frame
  | .program _ => some Store.globals
  | _ => none

theorem leaves_yield {α : Type} {values : α → List Value} {P : Machine → Prop} {x : Result α}
    (h : x.Leaves P) : (x.yield values).Leaves P := by
  cases x <;> exact h

/-- What runs at a point leaves all but the names of one frame as it was. -/
theorem moves_result (p : Point) : p.result.Leaves (p.machine.Keeps p.hole) := by
  have C := Machine.change_keeps none
  obtain ⟨fuel, frame, activity, calls, m⟩ := p
  cases activity with
  | expr e => exact leaves_yield (moves_expr fuel frame e m)
  | exprs es => exact leaves_yield (moves_all C (moves_expr fuel frame) es m)
  | call callee args paren => exact leaves_yield (moves_call (moves_stmt fuel) callee args paren m)
  | stmt s =>
    have hstmt : (stmt fuel frame s m).Leaves (m.Keeps (s.declared?.map fun _ => frame)) := by
      cases hs : s.declared? with
      | some name => exact moves_stmt fuel frame s m
      | none =>
        cases fuel with
        | zero => exact trivial
        | succ fuel => exact moves_undeclaring (moves_expr fuel) (moves_stmt fuel) fuel frame hs m
    exact leaves_yield hstmt
  | stmts ss =>
    exact leaves_yield
      (moves_sequence (Machine.change_keeps (some frame)) (moves_stmt fuel frame) ss m)
  | block body => exact leaves_yield (moves_block (moves_stmt fuel) frame body m)
  | branches rest =>
    exact leaves_yield
      (moves_branches C (moves_expr fuel frame) (moves_block (moves_stmt fuel) frame) rest m)
  | times count done rounds body =>
    exact leaves_yield
      (moves_timesLoop C (moves_block (moves_stmt fuel) frame body) count rounds done m)
  | loop token cond body rounds =>
    exact leaves_yield (moves_whileLoop C (moves_condition C (moves_expr fuel frame) token cond)
      (moves_block (moves_stmt fuel) frame body) rounds m)
  | program ss => exact leaves_yield (moves_program fuel ss m)

/-- Binding a new variable adds its name to the frame. -/
theorem names_of_define {frame : Nat} {name : Token} {v : Value} {m m₁ : Machine}
    (hframe : frame < m.store.frames.size) (h : defineVariable frame name v m = .done () m₁) :
    name.lexeme ∉ m.store.names frame ∧
      m₁.store.names frame = name.lexeme :: m.store.names frame := by
  unfold defineVariable at h
  split at h
  · cases h
  · rename_i hnew
    cases h
    refine ⟨fun hbound => hnew ?_, Store.names_define _ _ _ _ hframe⟩
    rwa [Store.binds_eq, Store.value?_isSome_iff]

/-- A declaration that completes has added its name, which is new, to the frame it runs in. -/
theorem names_of_declared {fuel frame : Nat} {s : Stmt} {name : Token} {m m₁ : Machine} {flow : Flow}
    (hs : s.declared? = some name) (hframe : frame < m.store.frames.size)
    (h : stmt fuel frame s m = .done flow m₁) :
    name.lexeme ∉ m.store.names frame ∧
      m₁.store.names frame = name.lexeme :: m.store.names frame := by
  cases fuel with
  | zero => cases h
  | succ fuel =>
    cases s with
    | create t e =>
      cases hs
      obtain ⟨v, m₂, hv, h⟩ := of_bind_done h
      obtain ⟨_, m₃, hdefine, h⟩ := of_bind_done h
      cases h
      have hkeeps := moves_expr fuel frame e m
      rw [hv] at hkeeps
      rw [← hkeeps.store.names frame hframe nofun]
      exact names_of_define (Nat.lt_of_lt_of_le hframe hkeeps.store.size) hdefine
    | define t params body =>
      cases hs
      obtain ⟨f, m₂, hf, h⟩ := of_bind_done h
      obtain ⟨_, m₃, hdefine, h⟩ := of_bind_done h
      cases h
      cases hf
      exact names_of_define (m := { m with definitions := m.definitions + 1 }) hframe hdefine
    | _ => cases hs

/-- The names after a statement that completes. -/
theorem names_of_stmt {fuel frame : Nat} {s : Stmt} {m m₁ : Machine} {flow : Flow}
    (hframe : frame < m.store.frames.size) (h : stmt fuel frame s m = .done flow m₁) (n : String) :
    n ∈ m₁.store.names frame ↔
      n ∈ m.store.names frame ∨ s.declared?.map (·.lexeme) = some n := by
  cases hs : s.declared? with
  | none =>
    have hkeeps := moves_result ⟨fuel, frame, .stmt s, [], m⟩
    have hresult : Point.result ⟨fuel, frame, .stmt s, [], m⟩ = .done flow.values m₁ :=
      congrArg (Result.yield Flow.values) h
    have hhole : Point.hole ⟨fuel, frame, .stmt s, [], m⟩ = none :=
      congrArg (Option.map fun _ => frame) hs
    rw [hresult, hhole] at hkeeps
    rw [hkeeps.store.names frame hframe nofun]
    simp
  | some name =>
    rw [(names_of_declared hs hframe h).2, List.mem_cons, or_comm]
    simp [eq_comm]

/-- The names after a program that is through. -/
theorem names_of_program {fuel : Nat} {ss : List Stmt} {m m₁ : Machine}
    (hsize : Store.globals < m.store.frames.size) (h : program fuel ss m = .done () m₁) (n : String) :
    n ∈ m₁.store.names Store.globals ↔
      n ∈ m.store.names Store.globals ∨ ∃ s ∈ ss, s.declared?.map (·.lexeme) = some n := by
  induction ss generalizing m with
  | nil =>
    cases h
    simp
  | cons s ss ih =>
    rw [program_cons] at h
    obtain ⟨flow, m₂, hs, hrest⟩ := of_bind_done h
    have hkeeps := moves_stmt fuel Store.globals s m
    rw [hs] at hkeeps
    rw [ih (Nat.lt_of_lt_of_le hsize hkeeps.store.size) hrest, names_of_stmt hsize hs]
    simp [or_assoc]

/-- A program that stops has been through the statements before the one that stopped it. -/
theorem program_stops {fuel : Nat} {ss : List Stmt} {m m' : Machine} {d : Diagnostic}
    (h : program fuel ss m = .fault d m') :
    ∃ before s later m₁, ss = before ++ s :: later ∧ program fuel before m = .done () m₁ ∧
      stmt fuel Store.globals s m₁ = .fault d m' := by
  induction ss generalizing m with
  | nil => cases h
  | cons s ss ih =>
    rw [program_cons] at h
    cases hs : stmt fuel Store.globals s m with
    | done flow m₁ =>
      rw [bind_of_done hs] at h
      obtain ⟨before, s', later, m₂, rfl, hbefore, hstop⟩ := ih h
      refine ⟨s :: before, s', later, m₂, rfl, ?_, hstop⟩
      rw [program_cons, bind_of_done hs]
      exact hbefore
    | fault d' m₁ =>
      rw [bind_of_fault hs] at h
      cases h
      exact ⟨[], s, ss, m, rfl, rfl, hs⟩
    | exhausted =>
      rw [bind_of_exhausted hs] at h
      cases h

/-! ### The discipline -/

/-- What the heap is like after what runs at a point. -/
structure Point.Disciplined (p : Point) (m : Machine) : Prop where
  /-- No frame is given up, and none is hung elsewhere. -/
  size : p.machine.store.frames.size ≤ m.store.frames.size
  parents : ∀ i < p.machine.store.frames.size, m.store.parent? i = p.machine.store.parent? i
  /-- A new frame hangs off an earlier one. -/
  fresh : ∀ i, p.machine.store.frames.size ≤ i → i < m.store.frames.size →
    ∃ j < i, m.store.parent? i = some j
  /-- The way out from a frame ends at the global variables. -/
  chains : ∀ i < m.store.frames.size,
    ∃ d ≤ i, m.store.ancestor? i d = some Store.globals ∧ m.store.ancestor? i (d + 1) = none
  /-- No variable is lost, and only a `change` changes one. -/
  values : ∀ a v, p.machine.store.value? a = some v →
    ∃ w, m.store.value? a = some w ∧ (w = v ∨ ∃ q, Reaches p q ∧ q.Rebinds a)
  /-- A `change` that completes rebinds one variable. -/
  rebinds : ∀ target e, p.activity = .stmt (.change target e) → ∀ vs, p.result = .done vs m →
    ∃ a, p.Rebinds a
  /-- Names are added to one frame at most. -/
  names : ∀ i < p.machine.store.frames.size, some i ≠ p.hole →
    m.store.names i = p.machine.store.names i
  /-- A declaration that completes adds its name. -/
  declares : ∀ s name, p.activity = .stmt s → s.declared? = some name →
    ∀ vs, p.result = .done vs m → name.lexeme ∉ p.machine.store.names p.frame ∧
      m.store.names p.frame = name.lexeme :: p.machine.store.names p.frame
  /-- One that does not complete adds none. -/
  stops : ∀ s, p.activity = .stmt s → ∀ d, p.result = .fault d m →
    m.store.names p.frame = p.machine.store.names p.frame

theorem of_yield_done {α : Type} {values : α → List Value} {x : Result α} {vs : List Value}
    {m : Machine} (h : x.yield values = .done vs m) : ∃ a, x = .done a m ∧ vs = values a := by
  cases x <;> cases h
  exact ⟨_, rfl, rfl⟩

theorem of_yield_fault {α : Type} {values : α → List Value} {x : Result α} {d : Diagnostic}
    {m : Machine} (h : x.yield values = .fault d m) : x = .fault d m := by
  cases x <;> cases h
  rfl

/-- A `change` that completes has rebound a variable. -/
theorem rebinds_of_done {p : Point} {target : Token} {e : Expr} {vs : List Value} {m : Machine}
    (hp : p.activity = .stmt (.change target e)) (h : p.result = .done vs m) :
    ∃ a, p.Rebinds a := by
  obtain ⟨fuel, frame, activity, calls, m₀⟩ := p
  obtain rfl : activity = _ := hp
  obtain ⟨flow, hdone, -⟩ := of_yield_done h
  cases fuel with
  | zero => cases hdone
  | succ fuel =>
    obtain ⟨v, m₁, hv, hdone⟩ := of_bind_done hdone
    obtain ⟨_, m₂, hset, -⟩ := of_bind_done hdone
    cases ht : locate? m₁ frame target with
    | none => rw [setVariable, ht] at hset; cases hset
    | some i => exact ⟨_, rebinds_change hv ht⟩

/-- What is accounted for is disciplined. -/
theorem disciplined_of_accounted {made : Closure → Prop} {p : Point} (hp : p.Ready made)
    (h : p.result.Accounted made p p.machine.store) : p.result.Leaves p.Disciplined := by
  have hmoves := moves_result p
  have hdisciplined : ∀ m, p.machine.Keeps p.hole m → Develops made p p.machine.store m.store →
      (∀ s, p.activity = .stmt s → ∀ d, p.result = .fault d m →
        m.store.names p.frame = p.machine.store.names p.frame) → p.Disciplined m := by
    intro m hkeeps hdev hstops
    have hrooted := (hdev.sound hp.store).rooted
    refine ⟨hkeeps.store.size, hkeeps.store.parent, ?_, fun i hi => hrooted.exists_ancestor hi,
      hdev.values, fun target e hs vs => rebinds_of_done hs, hkeeps.store.names, ?_, hstops⟩
    · intro i hge hi
      refine hrooted.parent i hi ?_
      rintro rfl
      exact absurd hp.store.rooted.size (Nat.not_lt_of_le hge)
    · intro s name hs hname vs hdone
      rw [Point.result, hs] at hdone
      obtain ⟨flow, hdone, -⟩ := of_yield_done hdone
      exact names_of_declared hname hp.frame hdone
  cases hresult : p.result with
  | done vs m =>
    rw [hresult] at h hmoves
    refine hdisciplined m hmoves h.1 fun s hs d hd => ?_
    cases hresult.symm.trans hd
  | fault d m =>
    rw [hresult] at h hmoves
    refine hdisciplined m hmoves h.1 fun s hs d hd => ?_
    rw [Point.result, hs] at hd
    have hstops := stops_stmt p.fuel p.frame s p.machine
    rw [of_yield_fault hd] at hstops
    exact hstops.store.names p.frame hp.frame nofun
  | exhausted => exact trivial

end Eval

namespace Session

/-- After a run that ends, the names of the global variables are the ones before it and the ones that
its statements declared that were through. -/
theorem globals_of_run {s : Session} {setting : Setting} {source : List Char} {program : Compiled}
    (hsize : Store.globals < s.store.frames.size)
    (h : compile s.globals (Text.normalizeNewlines source) = .ok program)
    (hends : (s.run setting source).2.ending ≠ .exhausted) :
    ∃ before rest m, program.stmts = before ++ rest ∧
      Eval.program setting.fuel before (s.entry setting program).machine = .done () m ∧
      ((s.run setting source).2.ending = .success ∧ rest = [] ∨
        ∃ stmt later d m', rest = stmt :: later ∧
          (s.run setting source).2.ending = .failure [d] ∧
          Eval.stmt setting.fuel Store.globals stmt m = .fault d m') ∧
      ∀ n, n ∈ (s.run setting source).1.globals ↔
        n ∈ s.globals ∨ ∃ stmt ∈ before, stmt.declared?.map (·.lexeme) = some n := by
  rw [run_of_program setting h] at hends ⊢
  cases hr : Eval.program setting.fuel program.stmts (s.entry setting program).machine with
  | done _ m =>
    exact ⟨program.stmts, [], m, by simp, hr, .inl ⟨rfl, rfl⟩, Eval.names_of_program hsize hr⟩
  | fault d m' =>
    obtain ⟨before, stmt, later, m, hsplit, hbefore, hstop⟩ := Eval.program_stops hr
    refine ⟨before, stmt :: later, m, hsplit, hbefore, .inr ⟨stmt, later, d, m', rfl, rfl, hstop⟩,
      fun n => ?_⟩
    -- the statement that stops the run adds no name
    have hkeeps := Eval.moves_program setting.fuel before (s.entry setting program).machine
    have hstops := Eval.stops_stmt setting.fuel Store.globals stmt m
    rw [hbefore] at hkeeps
    rw [hstop] at hstops
    have hnames : m'.store.names Store.globals = m.store.names Store.globals :=
      hstops.store.names _ (Nat.lt_of_lt_of_le hsize hkeeps.store.size) nofun
    exact (iff_of_eq (congrArg (n ∈ ·) hnames)).trans (Eval.names_of_program hsize hbefore n)
  | exhausted =>
    rw [hr] at hends
    exact absurd rfl hends

/-- Whatever has run before, at every point that a run of a program gets to the frames form a tree,
and what runs there keeps to the discipline. After the run, if it ends, the names of the global
variables are the ones before it and the ones that those of its statements declared that were
through: all of them, or the ones before the one that stopped it. -/
theorem heap_discipline (runs : List (Setting × List Char)) (setting : Setting) (source : List Char)
    {program : Compiled}
    (h : compile (after runs).globals (Text.normalizeNewlines source) = .ok program) :
    let run := (after runs).run setting source
    let start := (after runs).entry setting program
    (∀ p, Eval.Reaches start p →
      p.machine.store.Rooted ∧ p.frame < p.machine.store.frames.size ∧
        p.result.Leaves p.Disciplined) ∧
      (run.2.ending ≠ .exhausted → ∃ before rest m, program.stmts = before ++ rest ∧
        Eval.program setting.fuel before start.machine = .done () m ∧
        (run.2.ending = .success ∧ rest = [] ∨
          ∃ stmt later d m', rest = stmt :: later ∧ run.2.ending = .failure [d] ∧
            Eval.stmt setting.fuel Store.globals stmt m = .fault d m') ∧
        ∀ n, n ∈ run.1.globals ↔
          n ∈ (after runs).globals ∨
            ∃ stmt ∈ before, stmt.declared?.map (·.lexeme) = some n) := by
  intro run start
  have hs := sound_after runs
  have hmade := made_of_entry setting h
  refine ⟨fun p hp => ?_, fun hends => ?_⟩
  · have hready := Eval.ready_of_reaches hmade (ready_entry hs _ setting program) hp
    have haccounted := Eval.accounted .refl (fun q f hq => hmade q f (hp.trans hq)) hready
    exact ⟨hready.store.rooted, hready.frame, Eval.disciplined_of_accounted hready haccounted⟩
  · exact globals_of_run hs.rooted.size h hends

/-- A fault in the value of a new variable: the variable is not left behind. -/
theorem heap_discipline_unfinished :
    let setting : Setting := ⟨9, fun _ => Number.ofDecimalText ['0'], none⟩
    let source :=
      ['c', 'r', 'e', 'a', 't', 'e', ' ', 'y', ' ', '=', ' ', '1', ' ', '/', ' ', '0', '\n']
    ∃ program, compile (after []).globals (Text.normalizeNewlines source) = .ok program ∧
      ((after []).entry setting program).result.Leaves
        ((after []).entry setting program).Disciplined ∧
      "y" ∉ ((after []).run setting source).1.globals := by
  intro setting source
  obtain ⟨program, h, hlength⟩ : ∃ program,
      compile (after []).globals (Text.normalizeNewlines source) = .ok program ∧
        program.stmts.length = 1 := ⟨_, rfl, rfl⟩
  obtain ⟨hpoints, hnames⟩ := heap_discipline [] setting source h
  refine ⟨program, h, (hpoints _ .refl).2.2, fun hy => ?_⟩
  obtain ⟨before, rest, m, hsplit, -, hend, hglobals⟩ := hnames (by decide)
  have hfails : ((after []).run setting source).2.ending ≠ .success := by decide
  obtain ⟨hsuccess, -⟩ | ⟨stmt, later, -, -, rfl, -, -⟩ := hend
  · exact hfails hsuccess
  · obtain rfl : before = [] := by
      have := congrArg List.length hsplit
      rw [hlength, List.length_append, List.length_cons] at this
      exact List.length_eq_zero_iff.1 (by omega)
    have hold : "y" ∉ (after []).globals := by decide
    obtain hbound | ⟨_, hmem, _⟩ := (hglobals "y").1 hy
    · exact hold hbound
    · exact absurd hmem List.not_mem_nil

end Session

end Offside
