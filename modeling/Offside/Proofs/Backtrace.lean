import Offside.Proofs.Compiling
import Offside.Proofs.Frames
import Offside.Proofs.Operators

/-!
# Where the faults of a running program come from

A fault is raised by the code of a program, or by the code of a function that is called from there,
directly or through further calls. Functions outlive the run that defined them, so the code of one
run can call that of another. Whoever raises the fault is the one it is attributed to.

* `Definition`, `Stmt.definitions`: the functions that a tree defines;
* `Closure.Defined`, `Part`: functions and code, with the text that they were read from;
* `Backtrace`: the calls that lead to a fault, and the token it is raised at;
* `Eval.traces`, `Eval.traced_program`: every fault of running code has a backtrace.
-/

namespace Offside

/-! ### Definitions of a tree -/

/-- The definition of a function. -/
structure Definition where
  name : Token
  params : List Token
  body : List Stmt

mutual

/-- The definitions in a statement. -/
def Stmt.definitions : Stmt → List Definition
  | .block body => Stmt.allDefinitions body
  | .define name params body => ⟨name, params, body⟩ :: Stmt.allDefinitions body
  | .branch _ _ body rest => Stmt.allDefinitions body ++ rest.definitions
  | .repeatTimes _ _ body | .repeatWhile _ _ body => Stmt.allDefinitions body
  | .change _ _ | .create _ _ | .expression _ | .returnEmpty _ | .returnWith _ _ => []

/-- The definitions in statements, in order. -/
def Stmt.allDefinitions : List Stmt → List Definition
  | [] => []
  | s :: ss => s.definitions ++ Stmt.allDefinitions ss

/-- The definitions in the further branches of a conditional. -/
def Else.definitions : Else → List Definition
  | .nothing => []
  | .block body => Stmt.allDefinitions body
  | .branch _ _ body rest => Stmt.allDefinitions body ++ rest.definitions

end

/-- The body of a definition, as part of the code that the definition is in. -/
def Definition.Inside (d : Definition) (marks : List Mark) (definitions : List Definition) : Prop :=
  Stmt.allMarks d.body ⊆ marks ∧ Stmt.allDefinitions d.body ⊆ definitions

theorem Definition.Inside.mono {d : Definition} {marks marks' : List Mark}
    {definitions definitions' : List Definition} (h : d.Inside marks definitions)
    (hmarks : marks ⊆ marks') (hdefinitions : definitions ⊆ definitions') :
    d.Inside marks' definitions' :=
  ⟨List.Subset.trans h.1 hmarks, List.Subset.trans h.2 hdefinitions⟩

mutual

theorem Stmt.inside_of_mem {d : Definition} :
    ∀ s : Stmt, d ∈ s.definitions → d.Inside s.marks s.definitions
  | .block body, h => Stmt.inside_of_mem_all body h
  | .define name params body, h => by
    have hmarks : Stmt.allMarks body ⊆ (Stmt.define name params body).marks :=
      List.subset_append_right _ _
    have hdefinitions : Stmt.allDefinitions body ⊆ (Stmt.define name params body).definitions :=
      List.subset_cons_self _ _
    rcases List.mem_cons.1 h with rfl | h
    · exact ⟨hmarks, hdefinitions⟩
    · exact (Stmt.inside_of_mem_all body h).mono hmarks hdefinitions
  | .branch token cond body rest, h => by
    rcases List.mem_append.1 h with h | h
    · refine (Stmt.inside_of_mem_all body h).mono ?_ (List.subset_append_left _ _)
      exact List.Subset.trans (List.subset_append_right _ _) (List.subset_append_left _ _)
    · exact (Else.inside_of_mem rest h).mono (List.subset_append_right _ _)
        (List.subset_append_right _ _)
  | .repeatTimes token count body, h =>
    (Stmt.inside_of_mem_all body h).mono (List.subset_append_right _ _) (List.Subset.refl _)
  | .repeatWhile token cond body, h =>
    (Stmt.inside_of_mem_all body h).mono (List.subset_append_right _ _) (List.Subset.refl _)
  | .change _ _, h | .create _ _, h | .expression _, h | .returnEmpty _, h | .returnWith _ _, h =>
    absurd h List.not_mem_nil

theorem Stmt.inside_of_mem_all {d : Definition} :
    ∀ ss : List Stmt, d ∈ Stmt.allDefinitions ss →
      d.Inside (Stmt.allMarks ss) (Stmt.allDefinitions ss)
  | [], h => absurd h List.not_mem_nil
  | s :: ss, h => by
    rcases List.mem_append.1 h with h | h
    · exact (Stmt.inside_of_mem s h).mono (List.subset_append_left _ _)
        (List.subset_append_left _ _)
    · exact (Stmt.inside_of_mem_all ss h).mono (List.subset_append_right _ _)
        (List.subset_append_right _ _)

theorem Else.inside_of_mem {d : Definition} :
    ∀ r : Else, d ∈ r.definitions → d.Inside r.marks r.definitions
  | .nothing, h => absurd h List.not_mem_nil
  | .block body, h => Stmt.inside_of_mem_all body h
  | .branch token cond body rest, h => by
    rcases List.mem_append.1 h with h | h
    · refine (Stmt.inside_of_mem_all body h).mono ?_ (List.subset_append_left _ _)
      exact List.Subset.trans (List.subset_append_right _ _) (List.subset_append_left _ _)
    · exact (Else.inside_of_mem rest h).mono (List.subset_append_right _ _)
        (List.subset_append_right _ _)

end

/-! ### Code and the texts it was read from -/

/-- Code is part of the program read from the text with a given number. -/
def Part (sources : List (List Char)) (file : Nat) (code : List Stmt) : Prop :=
  ∃ text program, sources[file]? = some text ∧ Grammar.read text = .ok program ∧
    Stmt.allMarks code ⊆ Stmt.allMarks program ∧
    Stmt.allDefinitions code ⊆ Stmt.allDefinitions program

/-- A function is defined by the program read from the text with its number. -/
def Closure.Defined (sources : List (List Char)) (f : Closure) : Prop :=
  ∃ text program, sources[f.file]? = some text ∧ Grammar.read text = .ok program ∧
    ∃ d ∈ Stmt.allDefinitions program,
      f.name = d.name.lexeme ∧ f.params = d.params.map (·.lexeme) ∧ f.body = d.body

theorem Closure.Defined.part {sources : List (List Char)} {f : Closure} (h : f.Defined sources) :
    Part sources f.file f.body := by
  obtain ⟨text, program, htext, hread, d, hd, -, -, hbody⟩ := h
  obtain ⟨hmarks, hdefinitions⟩ := Stmt.inside_of_mem_all program hd
  rw [hbody]
  exact ⟨text, program, htext, hread, hmarks, hdefinitions⟩

theorem Closure.Defined.append {sources : List (List Char)} {f : Closure} (h : f.Defined sources)
    (more : List (List Char)) : f.Defined (sources ++ more) := by
  obtain ⟨text, program, htext, hdefined⟩ := h
  refine ⟨text, program, ?_, hdefined⟩
  rw [List.getElem?_append_left (List.getElem?_eq_some_iff.1 htext).1, htext]

/-- If a value is a function, then one that a text defines. -/
def Value.Sourced (sources : List (List Char)) (v : Value) : Prop :=
  ∀ f, v = .function f → f.Defined sources

/-- Every function in bindings is one that a text defines. -/
def Bindings.Sourced (sources : List (List Char)) (bs : Bindings) : Prop :=
  ∀ b ∈ bs, b.2.Sourced sources

/-- Every function in a store is one that a text defines. -/
def Store.Sourced (sources : List (List Char)) (s : Store) : Prop :=
  ∀ frame ∈ s.frames, Bindings.Sourced sources frame.bindings

/-- How running code comes to a fault: the code raises it itself, at one of its tokens, or it calls a
function whose code does. The faults of a call as a whole, and no others, are raised at its closing
parenthesis. -/
inductive Backtrace (sources : List (List Char)) : Context → List Stmt → Diagnostic → Prop
  | raised {context : Context} {code : List Stmt} {role : Role} {t : Token} {cause : Cause} :
    (role, t) ∈ Stmt.allMarks code → cause.isRuntime → (cause.atCall ↔ role = .closing) →
    Backtrace sources context code ((t.diagnose cause).inFile context.file)
  | called {context : Context} {code : List Stmt} {paren : Token} {f : Closure} {args : List Value}
    {fuel : Nat} {m m' : Machine} {d : Diagnostic} :
    (.closing, paren) ∈ Stmt.allMarks code → f.Defined sources → m.context = context →
    context.depth < Eval.maxCallDepth →
    Eval.callFunction (Eval.stmt fuel) f args paren m = .fault d m' →
    Backtrace sources ⟨f.scope, f.file, context.depth + 1⟩ f.body d →
    Backtrace sources context code d

/-- The last call of a backtrace leads to the text that the fault is attributed to. -/
theorem Backtrace.located {sources : List (List Char)} {context : Context} {code : List Stmt}
    {d : Diagnostic} (h : Backtrace sources context code d)
    (hpart : Part sources context.file code) :
    ∃ k text, d.file = some k ∧ sources[k]? = some text ∧ Located text d.line d.place d.span := by
  induction h with
  | raised hmark _ _ =>
    obtain ⟨text, program, htext, hread, hmarks, -⟩ := hpart
    exact ⟨_, text, rfl, htext, Grammar.located_of_read hread (hmarks hmark)⟩
  | called _ hf _ _ _ _ ih => exact ih hf.part

theorem Backtrace.isRuntime {sources : List (List Char)} {context : Context} {code : List Stmt}
    {d : Diagnostic} (h : Backtrace sources context code d) : d.cause.isRuntime := by
  induction h with
  | raised _ hcause _ => exact hcause
  | called _ _ _ _ _ _ ih => exact ih

/-! ### Stores -/

namespace Bindings

variable {sources : List (List Char)}

theorem Sourced.update {bs : Bindings} {v : Value} (h : Sourced sources bs)
    (hv : v.Sourced sources) (name : String) :
    Sourced sources (update name v bs) := by
  induction bs with
  | nil => exact h
  | cons b bs ih =>
    obtain ⟨n, w⟩ := b
    obtain ⟨hw, hbs⟩ := List.forall_mem_cons.1 h
    rw [Bindings.update]
    split
    · exact List.forall_mem_cons.2 ⟨hv, hbs⟩
    · exact List.forall_mem_cons.2 ⟨hw, ih hbs⟩

theorem Sourced.insertAll {bs : Bindings} {names : List String} {values : List Value}
    (h : Sourced sources bs) (hvalues : ∀ v ∈ values, v.Sourced sources) :
    Sourced sources (bs.insertAll names values) := by
  induction names generalizing bs values with
  | nil => rwa [insertAll.eq_def]
  | cons name names ih =>
    cases values with
    | nil => exact h
    | cons v values =>
      obtain ⟨hv, hvalues⟩ := List.forall_mem_cons.1 hvalues
      rw [Bindings.insertAll]
      refine ih ?_ hvalues
      rw [insert]
      split
      · exact h.update hv name
      · exact List.forall_mem_cons.2 ⟨hv, h⟩

end Bindings

namespace Store

variable {sources : List (List Char)} {s : Store}

theorem Sourced.append (h : s.Sourced sources) (more : List (List Char)) :
    s.Sourced (sources ++ more) :=
  fun frame hframe b hb f hf => (h frame hframe b hb f hf).append more

theorem sourced_initial : Store.initial.Sourced sources := by
  intro frame hframe b hb f hf
  obtain rfl : frame = _ := by simpa [Store.initial] using hframe
  obtain ⟨n, -, rfl⟩ := List.mem_map.1 hb
  cases hf

theorem Sourced.getAt? (h : s.Sourced sources) {frame distance : Nat} {name : String} {v : Value}
    (hv : s.getAt? frame distance name = some v) : v.Sourced sources := by
  simp only [Store.getAt?, Option.bind_eq_bind, Option.bind_eq_some_iff] at hv
  obtain ⟨target, -, fr, hfr, hget⟩ := hv
  obtain ⟨before, after, hbindings, -⟩ := List.lookup_eq_some_iff.1 hget
  exact h fr (Array.mem_of_getElem? hfr) (name, v) (by simp [hbindings])

theorem Sourced.alloc (h : s.Sourced sources) (parent : Nat) {bindings : Bindings}
    (hbindings : Bindings.Sourced sources bindings) :
    (s.alloc parent bindings).2.Sourced sources := by
  intro frame hframe
  rcases Array.mem_push.1 hframe with hframe | rfl
  · exact h frame hframe
  · exact hbindings

/-- A change to one frame that keeps the functions in it ones that a text defines. -/
theorem Sourced.modify (h : s.Sourced sources) (i : Nat) {change : Frame → Frame}
    (hchange : ∀ f, Bindings.Sourced sources f.bindings →
      Bindings.Sourced sources (change f).bindings) :
    (⟨s.frames.modify i change⟩ : Store).Sourced sources := by
  intro frame hframe
  obtain ⟨j, hj⟩ := Array.mem_iff_getElem?.1 hframe
  -- the frame is the one that changed, or one that was there before
  rw [Array.getElem?_modify] at hj
  split at hj
  · obtain ⟨f, hf, rfl⟩ := Option.map_eq_some_iff.1 hj
    exact hchange f (h f (Array.mem_of_getElem? hf))
  · exact h frame (Array.mem_of_getElem? hj)

theorem Sourced.define (h : s.Sourced sources) (frame : Nat) (name : String) {v : Value}
    (hv : v.Sourced sources) : (s.define frame name v).Sourced sources :=
  h.modify frame fun _ hf => List.forall_mem_cons.2 ⟨hv, hf⟩

theorem Sourced.update (h : s.Sourced sources) (frame : Nat) (name : String) {v : Value}
    (hv : v.Sourced sources) : (s.update frame name v).Sourced sources :=
  h.modify frame fun _ hf => hf.update hv name

end Store

/-! ### Computations -/

/-- How a computation of running code ends: its value has a given property, or its fault has a
backtrace, and the functions in the store are ones that texts define. -/
def Result.Traced {α : Type} (sources : List (List Char)) (context : Context) (code : List Stmt)
    (Q : α → Prop) : Result α → Prop
  | .done a m => Q a ∧ m.context = context ∧ m.store.Sourced sources
  | .fault d m => Backtrace sources context code d ∧ m.store.Sourced sources
  | .exhausted => True

/-- A computation of running code ends so if it starts with functions that texts define. -/
def Run.Traced {α : Type} (sources : List (List Char)) (context : Context) (code : List Stmt)
    (Q : α → Prop) (x : Run α) : Prop :=
  ∀ m : Machine, m.context = context → m.store.Sourced sources →
    (x m).Traced sources context code Q

/-- If a statement returns a function, then one that a text defines. -/
def Flow.Sourced (sources : List (List Char)) (flow : Flow) : Prop := flow.value.Sourced sources

namespace Run

variable {α β : Type} {sources : List (List Char)} {context : Context} {code : List Stmt}
  {Q : α → Prop} {Q' : β → Prop}

theorem traced_pure {a : α} (h : Q a) : (pure a : Run α).Traced sources context code Q :=
  fun _ hcontext hstore => ⟨h, hcontext, hstore⟩

/-- A fault other than one of a call as a whole. -/
theorem backtrace_fail {m : Machine} (hcontext : m.context = context) {role : Role} {t : Token}
    {e : RuntimeFault} (hmark : (role, t) ∈ Stmt.allMarks code) (hrole : role ≠ .closing)
    (he : (Cause.runtime e).atCall = false) :
    Backtrace sources context code ((t.diagnose (.runtime e)).inFile m.context.file) := by
  rw [hcontext]
  exact .raised hmark rfl (by simp [he, hrole])

theorem traced_fail {role : Role} {t : Token} {e : RuntimeFault}
    (hmark : (role, t) ∈ Stmt.allMarks code) (hrole : role ≠ .closing)
    (he : (Cause.runtime e).atCall = false) : (fail t e : Run α).Traced sources context code Q :=
  fun _ hcontext hstore => ⟨backtrace_fail hcontext hmark hrole he, hstore⟩

/-- A fault of a call as a whole. -/
theorem backtrace_stop {m : Machine} (hcontext : m.context = context) {paren : Token} {cause : Cause}
    (hmark : (.closing, paren) ∈ Stmt.allMarks code) (hcause : cause.isRuntime)
    (hcall : cause.atCall) :
    Backtrace sources context code ((paren.diagnose cause).inFile m.context.file) := by
  rw [hcontext]
  exact .raised hmark hcause (by simp [hcall])

theorem traced_stop {paren : Token} {cause : Cause}
    (hmark : (.closing, paren) ∈ Stmt.allMarks code) (hcause : cause.isRuntime)
    (hcall : cause.atCall) : (stop paren cause : Run α).Traced sources context code Q :=
  fun _ hcontext hstore => ⟨backtrace_stop hcontext hmark hcause hcall, hstore⟩

theorem Traced.bind {x : Run α} {f : α → Run β} (hx : x.Traced sources context code Q)
    (hf : ∀ a, Q a → (f a).Traced sources context code Q') :
    (x >>= f).Traced sources context code Q' := by
  intro m hcontext hstore
  have hm := hx m hcontext hstore
  cases h : x m with
  | done a m₁ =>
    rw [h] at hm
    rw [bind_of_done h]
    exact hf a hm.1 m₁ hm.2.1 hm.2.2
  | fault d m₁ =>
    rw [h] at hm
    rw [bind_of_fault h]
    exact hm
  | exhausted =>
    rw [bind_of_exhausted h]
    exact trivial

end Run

/-! ### Values -/

section

variable {sources : List (List Char)}

theorem Value.sourced_bool (x : Bool) : (Value.bool x).Sourced sources := fun _ h => nomatch h

theorem Value.sourced_empty : Value.empty.Sourced sources := fun _ h => nomatch h

theorem Value.sourced_number (x : Number) : (Value.number x).Sourced sources := fun _ h => nomatch h

theorem Value.sourced_ofConstant (c : Constant) : (Value.ofConstant c).Sourced sources := by
  cases c <;> exact fun _ h => nomatch h

end

/-! ### Evaluation -/

namespace Eval

open Run

variable {sources : List (List Char)} {context : Context} {code : List Stmt}

theorem traced_ofExcept {t : Token} {r : Except RuntimeFault Value}
    (hmark : (.operator, t) ∈ Stmt.allMarks code) (h : Plain r) :
    (ofExcept t r).Traced sources context code (Value.Sourced sources) := by
  cases r with
  | ok v => exact traced_pure fun f hf => absurd hf (h f)
  | error e => exact traced_fail hmark (by decide) h.2

theorem traced_getVariable {frame : Nat} {name : Token}
    (hmark : (.reference, name) ∈ Stmt.allMarks code) :
    (getVariable frame name).Traced sources context code (Value.Sourced sources) := by
  intro m hcontext hstore
  cases hv : lookup? m frame name with
  | none =>
    rw [getVariable, hv]
    exact ⟨backtrace_fail hcontext hmark (by decide) rfl, hstore⟩
  | some v =>
    rw [getVariable, hv]
    obtain ⟨distance, -, hget⟩ := Option.bind_eq_some_iff.1 hv
    exact ⟨hstore.getAt? hget, hcontext, hstore⟩

theorem traced_setVariable {frame : Nat} {name : Token} {v : Value}
    (hmark : (.reference, name) ∈ Stmt.allMarks code) (hv : v.Sourced sources) :
    (setVariable frame name v).Traced sources context code fun _ => True := by
  intro m hcontext hstore
  cases ht : locate? m frame name with
  | none =>
    rw [setVariable, ht]
    exact ⟨backtrace_fail hcontext hmark (by decide) rfl, hstore⟩
  | some target =>
    rw [setVariable, ht]
    exact ⟨trivial, hcontext, hstore.update target name.lexeme hv⟩

theorem traced_defineVariable {frame : Nat} {name : Token} {v : Value}
    (hmark : (.declaration, name) ∈ Stmt.allMarks code) (hv : v.Sourced sources) :
    (defineVariable frame name v).Traced sources context code fun _ => True := by
  intro m hcontext hstore
  rw [defineVariable]
  split
  · exact ⟨backtrace_fail hcontext hmark (by decide) rfl, hstore⟩
  · exact ⟨trivial, hcontext, hstore.define frame name.lexeme hv⟩

/-- A function that running code makes is defined by the text of that code. -/
theorem traced_makeFunction (hpart : Part sources context.file code) {frame : Nat} {name : Token}
    {params : List Token} {body : List Stmt}
    (hdefinition : ⟨name, params, body⟩ ∈ Stmt.allDefinitions code) :
    (makeFunction frame name params body).Traced sources context code (Value.Sourced sources) := by
  rintro m rfl hstore
  refine ⟨fun f hf => ?_, rfl, hstore⟩
  -- the new function gets the file of the context, which is the file that the code is part of
  obtain ⟨text, program, htext, hread, -, hdefinitions⟩ := hpart
  obtain rfl := Value.function.inj hf
  exact ⟨text, program, htext, hread, _, hdefinitions hdefinition, rfl, rfl, rfl⟩

theorem traced_truth {role : Role} {t : Token} {e : RuntimeFault} (v : Value)
    (hmark : (role, t) ∈ Stmt.allMarks code) (hrole : role ≠ .closing)
    (he : (Cause.runtime e).atCall = false) :
    (truth t e v).Traced sources context code fun _ => True := by
  cases v with
  | bool b => exact traced_pure trivial
  | _ => exact traced_fail hmark hrole he

theorem traced_repetitions {t : Token} (v : Value) (hmark : (.word, t) ∈ Stmt.allMarks code) :
    (repetitions t v).Traced sources context code fun _ => True := by
  cases v with
  | number x =>
    rw [repetitions]
    split
    · exact traced_pure trivial
    · exact traced_fail hmark (by decide) rfl
  | _ => exact traced_fail hmark (by decide) rfl

theorem traced_displayAll {paren : Token} (hmark : (.closing, paren) ∈ Stmt.allMarks code)
    (values : List Value) :
    (displayAll paren values).Traced sources context code (Value.Sourced sources) := by
  induction values with
  | nil => exact traced_pure Value.sourced_empty
  | cons v values ih =>
    refine Traced.bind (Q := fun _ => True) ?_ fun _ _ => ih
    intro m hcontext hstore
    rw [display]
    split
    · exact ⟨trivial, hcontext, hstore⟩
    · exact ⟨backtrace_stop hcontext hmark rfl rfl, hstore⟩

/-! ### Lists, branches and loops -/

theorem traced_all {eval : Expr → Run Value}
    (h : ∀ e : Expr, e.marks ⊆ Stmt.allMarks code →
      (eval e).Traced sources context code (Value.Sourced sources))
    (es : List Expr) (hmarks : Expr.allMarks es ⊆ Stmt.allMarks code) :
    (all eval es).Traced sources context code fun vs => ∀ v ∈ vs, v.Sourced sources := by
  induction es with
  | nil => exact traced_pure (by simp)
  | cons e es ih =>
    simp only [Expr.allMarks, List.append_subset] at hmarks
    refine Traced.bind (h e hmarks.1) fun v hv => ?_
    refine Traced.bind (ih hmarks.2) fun vs hvs => ?_
    exact traced_pure (List.forall_mem_cons.2 ⟨hv, hvs⟩)

theorem traced_andThen {next : Run Flow}
    (h : next.Traced sources context code (Flow.Sourced sources)) {flow : Flow}
    (hflow : flow.Sourced sources) :
    (flow.andThen next).Traced sources context code (Flow.Sourced sources) := by
  cases flow with
  | normal => exact h
  | returned v => exact traced_pure hflow

theorem traced_normal :
    (pure .normal : Run Flow).Traced sources context code (Flow.Sourced sources) :=
  traced_pure Value.sourced_empty

theorem traced_sequence {exec : Stmt → Run Flow}
    (h : ∀ s : Stmt, s.marks ⊆ Stmt.allMarks code → s.definitions ⊆ Stmt.allDefinitions code →
      (exec s).Traced sources context code (Flow.Sourced sources))
    (ss : List Stmt) (hmarks : Stmt.allMarks ss ⊆ Stmt.allMarks code)
    (hdefinitions : Stmt.allDefinitions ss ⊆ Stmt.allDefinitions code) :
    (sequence exec ss).Traced sources context code (Flow.Sourced sources) := by
  induction ss with
  | nil => exact traced_normal
  | cons s ss ih =>
    simp only [Stmt.allMarks, Stmt.allDefinitions, List.append_subset] at hmarks hdefinitions
    rw [sequence_cons]
    exact Traced.bind (h s hmarks.1 hdefinitions.1) fun flow hflow =>
      traced_andThen (ih hmarks.2 hdefinitions.2) hflow

theorem traced_enterFrame (parent : Nat) {bindings : Bindings}
    (h : Bindings.Sourced sources bindings) :
    (enterFrame parent bindings).Traced sources context code fun _ => True :=
  fun _ hcontext hstore => ⟨trivial, hcontext, hstore.alloc parent h⟩

theorem traced_condition {eval : Expr → Run Value} {t : Token} {cond : Expr}
    (h : (eval cond).Traced sources context code (Value.Sourced sources))
    (hmark : (.word, t) ∈ Stmt.allMarks code) :
    (condition eval t cond).Traced sources context code fun _ => True :=
  Traced.bind h fun v _ => traced_truth v hmark (by decide) rfl

theorem traced_whileLoop {cond : Run Bool} {body : Run Flow}
    (hcond : cond.Traced sources context code fun _ => True)
    (hbody : body.Traced sources context code (Flow.Sourced sources)) (fuel : Nat) :
    (whileLoop cond body fuel).Traced sources context code (Flow.Sourced sources) := by
  induction fuel with
  | zero => exact fun _ _ _ => trivial
  | succ fuel ih =>
    rw [whileLoop_succ]
    refine Traced.bind hcond fun go _ => ?_
    split
    · exact Traced.bind hbody fun flow hflow => traced_andThen ih hflow
    · exact traced_normal

theorem traced_timesLoop {body : Run Flow}
    (hbody : body.Traced sources context code (Flow.Sourced sources)) (count fuel done : Nat) :
    (timesLoop body count fuel done).Traced sources context code (Flow.Sourced sources) := by
  induction fuel generalizing done with
  | zero => exact fun _ _ _ => trivial
  | succ fuel ih =>
    rw [timesLoop_succ]
    split
    · exact Traced.bind hbody fun flow hflow => traced_andThen (ih _) hflow
    · exact traced_normal

/-! ### Calls -/

/-- What is known of evaluation with some fuel, for code that is part of a text. -/
structure Traces (sources : List (List Char)) (fuel : Nat) : Prop where
  eval : ∀ {context : Context} {code : List Stmt}, Part sources context.file code →
    ∀ (frame : Nat) (e : Expr), e.marks ⊆ Stmt.allMarks code →
      (expr fuel frame e).Traced sources context code (Value.Sourced sources)
  exec : ∀ {context : Context} {code : List Stmt}, Part sources context.file code →
    ∀ (frame : Nat) (s : Stmt), s.marks ⊆ Stmt.allMarks code →
      s.definitions ⊆ Stmt.allDefinitions code →
      (stmt fuel frame s).Traced sources context code (Flow.Sourced sources)

section

variable {fuel : Nat} (hfuel : Traces sources fuel)
include hfuel

/-- The body of a function runs in the context of the text that defines the function. -/
theorem traced_callFunction {f : Closure} {args : List Value} {paren : Token}
    (hmark : (.closing, paren) ∈ Stmt.allMarks code) (hf : f.Defined sources)
    (hargs : ∀ v ∈ args, v.Sourced sources) :
    (callFunction (stmt fuel) f args paren).Traced sources context code
      (Value.Sourced sources) := by
  rintro m hcontext hstore
  by_cases hdepth : maxCallDepth ≤ m.context.depth
  · rw [callFunction, if_pos hdepth]
    exact ⟨backtrace_stop hcontext hmark rfl rfl, hstore⟩
  have hbody : (do
      let frame ← enterFrame f.frame (Bindings.insertAll [] f.params args)
      let flow ← sequence (stmt fuel frame) f.body
      return flow.value : Run Value).Traced sources ⟨f.scope, f.file, m.context.depth + 1⟩ f.body
        (Value.Sourced sources) := by
    have hbindings : Bindings.Sourced sources (Bindings.insertAll [] f.params args) :=
      Bindings.Sourced.insertAll (by simp [Bindings.Sourced]) hargs
    refine Traced.bind (traced_enterFrame f.frame hbindings) fun frame _ => ?_
    refine Traced.bind ?_ fun flow hflow => traced_pure hflow
    exact traced_sequence (hfuel.exec hf.part frame) f.body (List.Subset.refl _)
      (List.Subset.refl _)
  have hinner := hbody { m with context := ⟨f.scope, f.file, m.context.depth + 1⟩ } rfl hstore
  -- the context of the caller is put back, but a fault keeps the file it was given further in
  cases hcall : callFunction (stmt fuel) f args paren m with
  | exhausted => exact trivial
  | done v m' =>
    rw [callFunction, if_neg hdepth, within] at hcall
    split at hcall
    · rename_i hr
      rw [hr] at hinner
      cases hcall
      exact ⟨hinner.1, hcontext, hinner.2.2⟩
    · cases hcall
    · cases hcall
  | fault d m' =>
    -- the call as a whole is evidence for the backtrace, so it is kept before it is taken apart
    have hfault := hcall
    rw [callFunction, if_neg hdepth, within] at hcall
    split at hcall
    · cases hcall
    · rename_i hr
      rw [hr] at hinner
      cases hcall
      refine ⟨.called hmark hf hcontext (by rw [← hcontext]; omega) hfault ?_, hinner.2⟩
      rw [← hcontext]
      exact hinner.1
    · cases hcall

theorem traced_call {callee : Value} {args : List Value} {paren : Token}
    (hmark : (.closing, paren) ∈ Stmt.allMarks code) (hcallee : callee.Sourced sources)
    (hargs : ∀ v ∈ args, v.Sourced sources) :
    (call (stmt fuel) callee args paren).Traced sources context code (Value.Sourced sources) := by
  cases callee with
  | function f =>
    rw [call]
    split
    · exact traced_callFunction hfuel hmark (hcallee f rfl) hargs
    · exact traced_stop hmark rfl rfl
  | native n =>
    rw [call]
    split
    · cases n with
      | display => exact traced_displayAll hmark args
      | time => exact fun m hcontext hstore => ⟨Value.sourced_number _, hcontext, hstore⟩
    · exact traced_stop hmark rfl rfl
  | _ => exact traced_stop hmark rfl rfl

/-! ### Expressions and statements -/

variable (hpart : Part sources context.file code)
include hpart

theorem traced_expr (frame : Nat) (e : Expr) (hmarks : e.marks ⊆ Stmt.allMarks code) :
    (expr (fuel + 1) frame e).Traced sources context code (Value.Sourced sources) := by
  show (exprWith (expr fuel) (stmt fuel) frame e).Traced sources context code _
  have heval := hfuel.eval hpart frame
  cases e with
  | constant value => exact traced_pure (Value.sourced_ofConstant value)
  | «variable» name => exact traced_getVariable (hmarks List.mem_cons_self)
  | group inner => exact heval inner hmarks
  | unary op token operand =>
    simp only [Expr.marks, List.cons_subset] at hmarks
    exact Traced.bind (heval operand hmarks.2) fun v _ => traced_ofExcept hmarks.1 (op.plain_apply v)
  | binary op token left right =>
    simp only [Expr.marks, List.append_subset, List.cons_subset] at hmarks
    obtain ⟨hleft, hmark, hright⟩ := hmarks
    refine Traced.bind (heval left hleft) fun a _ => ?_
    exact Traced.bind (heval right hright) fun b _ => traced_ofExcept hmark (op.plain_apply a b)
  | logical op token left right =>
    simp only [Expr.marks, List.append_subset, List.cons_subset] at hmarks
    obtain ⟨hleft, hmark, hright⟩ := hmarks
    refine Traced.bind (heval left hleft) fun v _ => ?_
    refine Traced.bind (traced_truth v hmark (by decide) rfl) fun a _ => ?_
    split
    · exact traced_pure (Value.sourced_bool _)
    · refine Traced.bind (heval right hright) fun w _ => ?_
      refine Traced.bind (traced_truth w hmark (by decide) rfl) fun b _ => ?_
      exact traced_pure (Value.sourced_bool _)
  | call callee args paren =>
    simp only [Expr.marks, List.append_subset, List.cons_subset] at hmarks
    obtain ⟨⟨hcallee, hargs⟩, hmark, -⟩ := hmarks
    refine Traced.bind (heval callee hcallee) fun f hf => ?_
    refine Traced.bind (traced_all heval args hargs) fun values hvalues => ?_
    exact traced_call hfuel hmark hf hvalues

theorem traced_block (frame : Nat) (body : List Stmt)
    (hmarks : Stmt.allMarks body ⊆ Stmt.allMarks code)
    (hdefinitions : Stmt.allDefinitions body ⊆ Stmt.allDefinitions code) :
    (block (stmt fuel) frame body).Traced sources context code (Flow.Sourced sources) := by
  refine Traced.bind (traced_enterFrame frame (by simp [Bindings.Sourced])) fun inner _ => ?_
  exact traced_sequence (hfuel.exec hpart inner) body hmarks hdefinitions

theorem traced_branches (frame : Nat) (rest : Else) (hmarks : rest.marks ⊆ Stmt.allMarks code)
    (hdefinitions : rest.definitions ⊆ Stmt.allDefinitions code) :
    (branches (expr fuel frame) (block (stmt fuel) frame) rest).Traced sources context code
      (Flow.Sourced sources) := by
  induction rest using branches.induct with
  | case1 => exact traced_normal
  | case2 body => exact traced_block hfuel hpart frame body hmarks hdefinitions
  | case3 token cond body rest ih =>
    simp only [Else.marks, Else.definitions, List.append_subset, List.cons_subset,
      List.cons_append] at hmarks hdefinitions
    obtain ⟨hmark, ⟨hcond, hbody⟩, hrest⟩ := hmarks
    rw [branches]
    refine Traced.bind (traced_condition (hfuel.eval hpart frame cond hcond) hmark) fun b _ => ?_
    cases b with
    | false => exact ih hrest hdefinitions.2
    | true => exact traced_block hfuel hpart frame body hbody hdefinitions.1

theorem traced_stmt (frame : Nat) (s : Stmt) (hmarks : s.marks ⊆ Stmt.allMarks code)
    (hdefinitions : s.definitions ⊆ Stmt.allDefinitions code) :
    (stmt (fuel + 1) frame s).Traced sources context code (Flow.Sourced sources) := by
  show (stmtWith fuel (expr fuel) (stmt fuel) frame s).Traced sources context code _
  have heval := hfuel.eval hpart frame
  cases s with
  | block body => exact traced_block hfuel hpart frame body hmarks hdefinitions
  | change target value =>
    simp only [Stmt.marks, List.cons_subset] at hmarks
    refine Traced.bind (heval value hmarks.2) fun v hv => ?_
    exact Traced.bind (traced_setVariable hmarks.1 hv) fun _ _ => traced_normal
  | create name value =>
    simp only [Stmt.marks, List.cons_subset] at hmarks
    refine Traced.bind (heval value hmarks.2) fun v hv => ?_
    exact Traced.bind (traced_defineVariable hmarks.1 hv) fun _ _ => traced_normal
  | define name params body =>
    have hmark : (Role.declaration, name) ∈ Stmt.allMarks code :=
      hmarks (List.mem_append_left _ List.mem_cons_self)
    refine Traced.bind (traced_makeFunction hpart (hdefinitions List.mem_cons_self)) fun f hf => ?_
    exact Traced.bind (traced_defineVariable hmark hf) fun _ _ => traced_normal
  | expression value => exact Traced.bind (heval value hmarks) fun _ _ => traced_normal
  | branch token cond body rest =>
    simp only [Stmt.marks, Stmt.definitions, List.append_subset, List.cons_subset,
      List.cons_append] at hmarks hdefinitions
    obtain ⟨hmark, ⟨hcond, hbody⟩, hrest⟩ := hmarks
    refine Traced.bind (traced_condition (heval cond hcond) hmark) fun b _ => ?_
    cases b with
    | false => exact traced_branches hfuel hpart frame rest hrest hdefinitions.2
    | true => exact traced_block hfuel hpart frame body hbody hdefinitions.1
  | repeatTimes token count body =>
    simp only [Stmt.marks, List.append_subset, List.cons_subset, List.cons_append] at hmarks
    obtain ⟨hmark, hcount, hbody⟩ := hmarks
    refine Traced.bind (heval count hcount) fun v _ => ?_
    refine Traced.bind (traced_repetitions v hmark) fun n _ => ?_
    exact traced_timesLoop (traced_block hfuel hpart frame body hbody hdefinitions) n fuel 0
  | repeatWhile token cond body =>
    simp only [Stmt.marks, List.append_subset, List.cons_subset, List.cons_append] at hmarks
    obtain ⟨hmark, hcond, hbody⟩ := hmarks
    exact traced_whileLoop (traced_condition (heval cond hcond) hmark)
      (traced_block hfuel hpart frame body hbody hdefinitions) fuel
  | returnEmpty token => exact traced_pure Value.sourced_empty
  | returnWith token value =>
    simp only [Stmt.marks, List.cons_subset] at hmarks
    exact Traced.bind (heval value hmarks.2) fun v hv => traced_pure hv

end

/-- Every fault of running code has a backtrace. -/
theorem traces (sources : List (List Char)) (fuel : Nat) : Traces sources fuel := by
  induction fuel with
  | zero => exact ⟨fun _ _ _ _ _ _ _ => trivial, fun _ _ _ _ _ _ _ _ => trivial⟩
  | succ fuel ih => exact ⟨traced_expr ih, traced_stmt ih⟩

theorem traced_program (hpart : Part sources context.file code) (fuel : Nat) (ss : List Stmt)
    (hmarks : Stmt.allMarks ss ⊆ Stmt.allMarks code)
    (hdefinitions : Stmt.allDefinitions ss ⊆ Stmt.allDefinitions code) :
    (program fuel ss).Traced sources context code fun _ => True := by
  induction ss with
  | nil => exact traced_pure trivial
  | cons s ss ih =>
    simp only [Stmt.allMarks, Stmt.allDefinitions, List.append_subset] at hmarks hdefinitions
    rw [program_cons]
    exact Traced.bind
      ((traces sources fuel).exec hpart Store.globals s hmarks.1 hdefinitions.1)
      fun _ _ => ih hmarks.2 hdefinitions.2

end Eval

end Offside
