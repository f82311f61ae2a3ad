import Offside.Proofs.Discipline

/-!
# Calls

A call runs the body of a function in a context of its own: the scope and the file that the function
got when it was made, one call deeper. However the body ends, the caller goes on in the context it
had. So the depth of the context is the number of active calls at every point of a run, and it never
exceeds the limit; a call beyond it is a fault, and nothing of the function runs.

* `Compiled.contextOf`: the context that belongs to active calls;
* `Point.Overflows`: a call beyond the limit, and its fault;
* `Eval.context_of_reaches`: every point runs in the context of the active calls;
* `Session.calls_bracketed`: contexts, depth and faults at every point of every run.
-/

namespace Offside

/-- The context of the code that runs while calls are active, the innermost first. -/
def Compiled.contextOf (program : Compiled) (file : Nat) : List Closure → Context
  | [] => ⟨program.scope, file, 0⟩
  | f :: calls => ⟨f.scope, f.file, calls.length + 1⟩

theorem Compiled.depth_contextOf (program : Compiled) (file : Nat) (calls : List Closure) :
    (program.contextOf file calls).depth = calls.length := by
  cases calls <;> rfl

namespace Eval

open Run

/-- A function is called with as many arguments as it has parameters while as many calls are active
as there may be, and this is the fault of the call. -/
def Point.Overflows (p : Point) (d : Diagnostic) : Prop :=
  ∃ f args paren, p.activity = .call (.function f) args paren ∧ f.params.length = args.length ∧
    p.calls.length = maxCallDepth ∧
    d = (paren.diagnose (.runtime .stackOverflow)).inFile p.machine.context.file

theorem context_of_done {α : Type} {hole : Option Nat} {x : Run α} {m m₁ : Machine} {a : α}
    (h : x m = .done a m₁) (hx : x.Moves (Machine.Keeps hole)) : m₁.context = m.context := by
  have hm := hx m
  rw [h] at hm
  exact hm.context

/-- A part runs in the context of the whole, unless it is the body of a function. -/
theorem context_of_starts {p q : Point} (h : Starts p q) :
    q.calls = p.calls ∧ q.machine.context = p.machine.context ∨
      ∃ f args paren, p.activity = .call (.function f) args paren ∧
        p.machine.context.depth < maxCallDepth ∧ q.calls = f :: p.calls ∧
        q.machine.context = ⟨f.scope, f.file, p.machine.context.depth + 1⟩ := by
  have C := Machine.change_keeps none
  cases h with
  | body hargs hdepth => exact .inr ⟨_, _, _, rfl, hdepth, rfl, rfl⟩
  | first | firstExpr | value | block | branch | loop | firstStmt | inner | otherwise | condition
  | round | whether | top => exact .inl ⟨rfl, rfl⟩
  | right hv | unsettled hv _ | args hv | moreExprs hv | times hv _ | chosen hv | passed hv
  | again hv => exact .inl ⟨rfl, context_of_done hv (moves_expr _ _ _)⟩
  | call hf hargs =>
    exact .inl ⟨rfl, (context_of_done hargs (moves_all C (moves_expr _ _) _)).trans
      (context_of_done hf (moves_expr _ _ _))⟩
  | moreStmts hs | moreTop hs => exact .inl ⟨rfl, context_of_done hs (moves_stmt _ _ _)⟩
  | moreRounds _ hbody =>
    exact .inl ⟨rfl, context_of_done hbody (moves_block (moves_stmt _) _ _)⟩
  | moreAgain hcond hbody =>
    exact .inl ⟨rfl, (context_of_done hbody (moves_block (moves_stmt _) _ _)).trans
      (context_of_done hcond (moves_expr _ _ _))⟩

/-- Every point runs in the context of the active calls, which are not too many. -/
theorem context_of_reaches {program : Compiled} {file : Nat} {r p : Point}
    (hr : r.machine.context = program.contextOf file r.calls)
    (hcalls : r.calls.length ≤ maxCallDepth) (h : Reaches r p) :
    p.machine.context = program.contextOf file p.calls ∧ p.calls.length ≤ maxCallDepth := by
  induction h with
  | refl => exact ⟨hr, hcalls⟩
  | tail _ hq ih =>
    obtain ⟨hcontext, hlength⟩ := ih
    obtain ⟨hcalls, hsame⟩ | ⟨f, args, paren, -, hdepth, hcalls, hnew⟩ := context_of_starts hq
    · rw [hsame, hcalls]
      exact ⟨hcontext, hlength⟩
    · rw [hcontext, Compiled.depth_contextOf] at hdepth hnew
      rw [hnew, hcalls]
      exact ⟨rfl, hdepth⟩

/-- The functions of active calls have what all functions have that a run can get hold of. -/
theorem made_of_calls {made : Closure → Prop} {r p : Point}
    (hmade : ∀ q f, Reaches r q → q.Makes f → made f) (hready : r.Ready made)
    (hr : ∀ f ∈ r.calls, made f) (h : Reaches r p) : ∀ f ∈ p.calls, made f := by
  induction h with
  | refl => exact hr
  | @tail p q hp hq ih =>
    obtain ⟨hcalls, -⟩ | ⟨f, args, paren, hactivity, -, hcalls, -⟩ := context_of_starts hq
    · rwa [hcalls]
    · have hvalues := (ready_of_reaches hmade hready hp).values
      rw [hactivity] at hvalues
      rw [hcalls]
      exact List.forall_mem_cons.2 ⟨(hvalues _ List.mem_cons_self f rfl).2, ih⟩

/-- A call beyond the limit is a fault, and nothing of the function runs. -/
theorem Point.Overflows.fault {p : Point} {d : Diagnostic} (h : p.Overflows d)
    (hdepth : p.machine.context.depth = p.calls.length) :
    p.result = .fault d p.machine ∧ ∀ q, ¬ Starts p q := by
  obtain ⟨fuel, frame, activity, calls, m⟩ := p
  obtain ⟨f, args, paren, hactivity, harity, hlimit, rfl⟩ := h
  obtain rfl : activity = _ := hactivity
  have hfull : maxCallDepth ≤ m.context.depth := by
    rw [hdepth]
    exact hlimit.ge
  refine ⟨?_, fun q hq => ?_⟩
  · show (call (stmt fuel) (.function f) args paren m).yield _ = _
    rw [call, if_pos harity, callFunction, if_pos hfull]
    rfl
  · cases hq with
    | body _ hlt => exact absurd hfull (Nat.not_le_of_lt hlt)

end Eval

namespace Session

/-- Whatever has run before, at every point that a run gets to: what runs there leaves the context as
it found it, however it ends; the depth is the number of active calls, at most 4096; the code of a
function runs with the scope and the file of the function, which are those of the definition that
made it, in this run or in one before; and a fault for too many calls comes from a call of a function,
with as many arguments as it takes, while 4096 calls are active, and from every such call, of which
nothing runs. -/
theorem calls_bracketed (runs : List (Setting × List Char)) (setting : Setting)
    (source : List Char) {program : Compiled} {p : Eval.Point}
    (h : compile (after runs).globals (Text.normalizeNewlines source) = .ok program)
    (hp : Eval.Reaches ((after runs).entry setting program) p) :
    (p.result.Leaves fun m => m.context = p.machine.context) ∧
      p.machine.context = program.contextOf runs.length p.calls ∧
      p.machine.context.depth = p.calls.length ∧ p.calls.length ≤ Eval.maxCallDepth ∧
      (∀ f ∈ p.calls, ∃ before setting' source' later q,
        runs ++ [(setting, source)] = before ++ (setting', source') :: later ∧
        (after before).Visits setting' source' q ∧ q.Makes f ∧
        f.scope = q.machine.context.scope ∧ f.file = q.machine.context.file) ∧
      (∀ d, p.Overflows d → p.result = .fault d p.machine ∧ ∀ q, ¬ Eval.Starts p q) ∧
      ∀ d m, p.result = .fault d m → d.cause = .runtime .stackOverflow →
        ∃ q, Eval.Reaches p q ∧ q.Overflows d := by
  have hlength : (after runs).sources.length = runs.length := by simp [sources_after]
  have hmade := made_of_entry setting h
  have hentry := ready_entry (sound_after runs) [(setting, source)] setting program
  have hcontext : ∀ {q}, Eval.Reaches ((after runs).entry setting program) q →
      q.machine.context = program.contextOf runs.length q.calls ∧
        q.calls.length ≤ Eval.maxCallDepth :=
    Eval.context_of_reaches (congrArg (program.contextOf · []) hlength) (Nat.zero_le _)
  have hdepth : ∀ {q}, Eval.Reaches ((after runs).entry setting program) q →
      q.machine.context.depth = q.calls.length := fun hq => by
    rw [(hcontext hq).1, Compiled.depth_contextOf]
  refine ⟨?_, (hcontext hp).1, hdepth hp, (hcontext hp).2, fun f hf => ?_,
    fun d hd => hd.fault (hdepth hp), fun d m hfault hcause => ?_⟩
  · have hmoves := Eval.moves_result p
    cases hresult : p.result with
    | done vs m => rw [hresult] at hmoves; exact hmoves.context
    | fault d m => rw [hresult] at hmoves; exact hmoves.context
    | exhausted => exact trivial
  · obtain ⟨before, setting', source', later, q, hruns, hq, hmakes⟩ :=
      Eval.made_of_calls hmade hentry (fun f hf => absurd hf List.not_mem_nil) hp f hf
    refine ⟨before, setting', source', later, q, hruns, hq, hmakes, ?_⟩
    obtain ⟨name, params, body, -, rfl⟩ := hmakes
    exact ⟨rfl, rfl⟩
  · have haccounted := Eval.accounted .refl (fun q f hq => hmade q f (hp.trans hq))
      (Eval.ready_of_reaches hmade hentry hp)
    rw [hfault] at haccounted
    obtain ⟨q, hq, ⟨f, args, paren, hactivity, harity, hlimit⟩, hresult⟩ := haccounted.2 hcause
    have hreached := hp.trans hq
    -- at the limit the calls are as many as there may be, and the fault of the call is its own
    have hfull : q.calls.length = Eval.maxCallDepth := by
      rw [hdepth hreached] at hlimit
      exact Nat.le_antisymm (hcontext hreached).2 hlimit
    have hoverflows : q.Overflows _ := ⟨f, args, paren, hactivity, harity, hfull, rfl⟩
    rw [(hoverflows.fault (hdepth hreached)).1] at hresult
    injection hresult with hd
    exact ⟨q, hq, hd ▸ hoverflows⟩

/-- A function that one run defines and the next one calls: while its body runs one call is active,
and the scope and the file are those of the definition, not those of the call. -/
theorem calls_bracketed_body :
    let setting : Setting := ⟨9, fun _ => Number.ofDecimalText ['0'], none⟩
    let definition := "define f()\n  return with f\n".toList
    let source := "f()\n".toList
    let s := after [(setting, definition)]
    ∃ program p f, compile s.globals (Text.normalizeNewlines source) = .ok program ∧
      Eval.Reaches (s.entry setting program) p ∧ p.activity = .stmts f.body ∧ p.calls = [f] ∧
      p.machine.context = ⟨ScopeMap.ofReferences [(⟨25, 26⟩, 1)], 0, 1⟩ ∧
      p.result.Leaves fun m => m.context = p.machine.context := by
  intro setting definition source s
  have hafter : s = after [(setting, definition)] := rfl
  -- the session is known by what it keeps, and not to be computed again
  clear_value s
  let body : List Stmt :=
    [.returnWith ⟨.returnWord, "return", none, 2, ⟨13, 19⟩⟩
      (.variable ⟨.identifier, "f", none, 2, ⟨25, 26⟩⟩)]
  let defined := ScopeMap.ofReferences [(⟨25, 26⟩, 1)]
  let f : Closure := ⟨0, "f", [], body, Store.globals, defined, 0⟩
  have hfirst : compile initial.globals (Text.normalizeNewlines definition) =
      .ok ⟨[.define ⟨.identifier, "f", none, 1, ⟨7, 8⟩⟩ [] body], defined⟩ := rfl
  have hs : s = ⟨Store.initial.define Store.globals "f" (.function f), 1, 0, [definition]⟩ := by
    rw [hafter]
    show (initial.run _ _).1 = _
    rw [run_of_program _ hfirst]
    rfl
  have hstore : s.store.getAt? Store.globals 0 "f" = some (.function f) := by
    rw [hs]
    rfl
  let name : Token := ⟨.identifier, "f", none, 1, ⟨0, 1⟩⟩
  let call : Expr := .call (.variable name) [] ⟨.rightParen, ")", none, 1, ⟨2, 3⟩⟩
  obtain ⟨scope, hscope⟩ : ∃ scope, scope = ScopeMap.ofReferences [(name.span, 0)] := ⟨_, rfl⟩
  have hcompile : compile s.globals (Text.normalizeNewlines source) =
      .ok ⟨[.expression call], scope⟩ := by
    rw [hs, hscope]
    rfl
  let m := s.machine setting scope s.sources.length
  have hdistance : scope[name.span]? = some 0 := by
    rw [hscope]
    exact ScopeMap.getElem?_ofReferences (by decide) List.mem_cons_self
  have hname : Eval.expr 7 Store.globals (.variable name) m = .done (.function f) m :=
    Eval.expr_variable_of_bound hdistance hstore 6
  -- into the statement, the expression, its call and the body of the function
  have hp : Eval.Reaches (s.entry setting ⟨[.expression call], scope⟩) _ :=
    .head .top (.head (.value rfl) (.head (.call hname rfl)
      (.single (.body rfl (show 0 < 4096 by decide)))))
  obtain ⟨hleaves, hcontext, -⟩ := calls_bracketed [(setting, definition)] setting source
    (hafter ▸ hcompile) (hafter ▸ hp)
  exact ⟨_, _, f, hcompile, hp, rfl, rfl, hcontext, hleaves⟩

end Session

end Offside
