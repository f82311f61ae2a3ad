import Offside.Proofs.Concatenation
import Offside.Proofs.Discipline
import Offside.Proofs.Lines
import Offside.Proofs.Literals

/-!
# Runs on an output that closes

An output may close after a number of lines. A program that runs on such an output does what it does
on one that stays open, up to the call of `display` whose line no longer fits. There it stops, at the
closing parenthesis of the call, and what it has written is the first lines of what it would have
written. Every completed call of `display` writes one whole line, since no value is displayed on more
than one.

* `Sink.Wrote`, `Sink.Grows`: an output after more lines;
* `Result.Cut`, `Run.Truncates`: a computation on an output that closes, beside the same one on an
  output that stays open;
* `Eval.Point.Tidy`, `Eval.truncates`: the two go together, whatever runs;
* `Session.sink_truncates`: the runs of a session on an output that closes.
-/

namespace Offside

/-! ### Outputs -/

namespace Sink

/-- Between two states of an output, some lines have been written. -/
structure Wrote (ls : List (List Char)) (s s' : Sink) : Prop where
  line : ∀ l ∈ ls, '\n' ∉ l
  text : s'.text.toList = s.text.toList ++ ls.flatMap (· ++ ['\n'])
  lines : s'.lines = s.lines + ls.length
  limit : s'.limit = s.limit

/-- Between two states of an output, nothing but whole lines has been written. -/
def Grows (s s' : Sink) : Prop := ∃ ls, Wrote ls s s'

theorem Grows.refl (s : Sink) : Grows s s := ⟨[], by simp, by simp, rfl, rfl⟩

theorem Wrote.append {ls ls' : List (List Char)} {s s₁ s₂ : Sink} (h : Wrote ls s s₁)
    (h' : Wrote ls' s₁ s₂) : Wrote (ls ++ ls') s s₂ where
  line l hl := (List.mem_append.1 hl).elim (h.line l) (h'.line l)
  text := by rw [h'.text, h.text, List.flatMap_append, List.append_assoc]
  lines := by rw [h'.lines, h.lines, List.length_append, Nat.add_assoc]
  limit := h'.limit.trans h.limit

theorem Grows.trans {s s₁ s₂ : Sink} (h : Grows s s₁) (h' : Grows s₁ s₂) : Grows s s₂ := by
  obtain ⟨ls, hls⟩ := h
  obtain ⟨ls', hls'⟩ := h'
  exact ⟨ls ++ ls', hls.append hls'⟩

theorem Grows.lines_le {s s' : Sink} (h : Grows s s') : s.lines ≤ s'.lines := by
  obtain ⟨ls, hls⟩ := h
  rw [hls.lines]
  omega

theorem Grows.limit {s s' : Sink} (h : Grows s s') : s'.limit = s.limit := by
  obtain ⟨ls, hls⟩ := h
  exact hls.limit

/-- The output after one more line. -/
def addLine (s : Sink) (text : String) : Sink :=
  { s with text := s.text ++ text ++ "\n", lines := s.lines + 1 }

theorem wrote_addLine (s : Sink) {text : String} (h : '\n' ∉ text.toList) :
    Wrote [text.toList] s (s.addLine text) where
  line := by simpa using h
  text := by simp [addLine, String.toList_append]
  lines := rfl
  limit := rfl

/-- The lines of an output that consists of whole lines. -/
theorem Wrote.lines_text {limit : Option Nat} {ls : List (List Char)} {s : Sink}
    (h : Wrote ls (fresh limit) s) : Text.lines s.text.toList = ls.map (⟨·, true⟩) := by
  have htext : s.text.toList = ls.flatMap (· ++ ['\n']) := by simpa [fresh] using h.text
  rw [htext, Text.lines_flatMap h.line]

theorem Grows.length_lines {limit : Option Nat} {s : Sink} (h : Grows (fresh limit) s) :
    (Text.lines s.text.toList).length = s.lines := by
  obtain ⟨ls, hls⟩ := h
  rw [hls.lines_text, List.length_map, hls.lines]
  simp [fresh]

/-- What has been written comes first among the lines that are written later. -/
theorem Grows.take_lines {limit : Option Nat} {s s' : Sink} (h : Grows (fresh limit) s)
    (h' : Grows s s') :
    ((Text.lines s'.text.toList).take s.lines).flatMap Text.Line.chars = s.text.toList := by
  obtain ⟨ls, hls⟩ := h
  obtain ⟨ls', hls'⟩ := h'
  have hlength : s.lines = ls.length := by simpa [fresh] using hls.lines
  rw [(hls.append hls').lines_text, hlength, List.map_append, List.take_left' (List.length_map _),
    ← hls.lines_text, Text.flatMap_chars_lines]

/-- A line that is written is among the lines that there are later. -/
theorem Grows.getElem?_lines {limit : Option Nat} {s s' : Sink} {text : String}
    (h : Grows (fresh limit) s) (htext : '\n' ∉ text.toList) (h' : Grows (s.addLine text) s') :
    (Text.lines s'.text.toList)[s.lines]? = some ⟨text.toList, true⟩ := by
  obtain ⟨ls, hls⟩ := h
  obtain ⟨ls', hls'⟩ := h'
  have hlength : s.lines = ls.length := by simpa [fresh] using hls.lines
  rw [((hls.append (s.wrote_addLine htext)).append hls').lines_text, hlength]
  simp

theorem writeLine_of_open {s : Sink} {text : String} (htext : '\n' ∉ text.toList)
    (hopen : s.isOpen = true) : s.writeLine text = (s.addLine text, true) := by
  have hfeed : ∀ s : Sink, s.isOpen = true →
      s.write? "\n" = some { s with text := s.text ++ "\n", lines := s.lines + 1 } := by
    intro s hs
    rw [write?, if_neg (by decide), if_pos hs]
    rfl
  by_cases hempty : text.isEmpty = true
  · obtain rfl : text = "" := by simpa using hempty
    rw [writeLine, write?, if_pos hempty]
    dsimp only
    rw [hfeed s hopen]
    simp [addLine]
  · rw [writeLine, write?, if_neg hempty, if_pos hopen, List.count_eq_zero.2 htext, Nat.add_zero]
    dsimp only
    rw [hfeed ⟨s.text ++ text, s.lines, s.limit⟩ hopen]
    rfl

theorem writeLine_of_closed {s : Sink} (text : String) (hclosed : s.isOpen = false) :
    s.writeLine text = (s, false) := by
  have hfeed : s.write? "\n" = none := by
    rw [write?, if_neg (by decide), hclosed]
    rfl
  by_cases hempty : text.isEmpty = true
  · rw [writeLine, write?, if_pos hempty]
    dsimp only
    rw [hfeed]
  · rw [writeLine, write?, if_neg hempty, hclosed]
    rfl

/-- The output, closed after a number of lines. -/
def capped (n : Nat) (s : Sink) : Sink := { s with limit := some n }

end Sink

/-- The machine with its output closed after a number of lines. -/
def Machine.capped (n : Nat) (m : Machine) : Machine := { m with sink := m.sink.capped n }

/-- The same end with the output closed after a number of lines. -/
def Result.capped {α : Type} (n : Nat) : Result α → Result α
  | .done a m => .done a (m.capped n)
  | .fault d m => .fault d (m.capped n)
  | .exhausted => .exhausted

/-! ### Computations -/

/-- Literals can hold the texts of all variables, and the output consists of whole lines. -/
structure Machine.Tidy (m : Machine) : Prop where
  store : m.store.Clean
  sink : (Sink.fresh m.sink.limit).Grows m.sink

/-- What runs at a point is a call that displays a value after `n` lines have been written, and this
is the diagnostic that there is no room for more, at the closing parenthesis of the call. -/
def Eval.Point.StopsAt (n : Nat) (p : Eval.Point) (v : Value) (d : Diagnostic) : Prop :=
  ∃ paren, p.activity = .call (.native .display) [v] paren ∧ p.machine.sink.lines = n ∧
    d = (paren.diagnose (.output (.cannotWrite "stdout"))).inFile p.machine.context.file

/-- How a computation ends on an output that closes after `n` lines, beside how it ends on one that
stays open: alike, if it does not write more than that, and else where the next line would have been
written. -/
inductive Result.Cut (n : Nat) (r : Eval.Point) {α : Type} : Result α → Result α → Prop
  | kept {x : Result α} : x.Leaves (fun m => m.sink.lines ≤ n) → Cut n r x (x.capped n)
  | stopped {x : Result α} {p : Eval.Point} {v : Value} {d : Diagnostic} {m : Machine} :
    Eval.Reaches r p → p.StopsAt n v d → m.sink.text = p.machine.sink.text →
    x.Leaves (fun m' => (p.machine.sink.addLine v.toText).Grows m'.sink) →
    Cut n r x (.fault d m)

/-- A computation has left a tidy machine behind, with more output than there was, and a value that
has a given property. -/
def Result.Tidy {α : Type} (Q : α → Prop) (s : Sink) : Result α → Prop
  | .done a m => Q a ∧ m.Tidy ∧ s.Grows m.sink
  | .fault _ m => m.Tidy ∧ s.Grows m.sink
  | .exhausted => True

theorem Result.Tidy.from {α : Type} {Q : α → Prop} {s s₁ : Sink} {x : Result α} (h : x.Tidy Q s₁)
    (hs : s.Grows s₁) : x.Tidy Q s := by
  cases x with
  | done a m => exact ⟨h.1, h.2.1, hs.trans h.2.2⟩
  | fault d m => exact ⟨h.1, hs.trans h.2⟩
  | exhausted => exact trivial

theorem Result.Tidy.leaves {α : Type} {Q : α → Prop} {s : Sink} {x : Result α} (h : x.Tidy Q s) :
    x.Leaves fun m => s.Grows m.sink := by
  cases x with
  | done a m => exact h.2.2
  | fault d m => exact h.2
  | exhausted => exact trivial

/-- The same end in the context of other code. -/
def Result.inContext {α : Type} (context : Context) : Result α → Result α
  | .done a m => .done a { m with context := context }
  | .fault d m => .fault d { m with context := context }
  | .exhausted => .exhausted

theorem Result.Tidy.inContext {α : Type} {Q : α → Prop} {s : Sink} {x : Result α}
    (h : x.Tidy Q s) (context : Context) : (x.inContext context).Tidy Q s := by
  cases x with
  | done a m => exact ⟨h.1, ⟨h.2.1.store, h.2.1.sink⟩, h.2.2⟩
  | fault d m => exact ⟨⟨h.1.store, h.1.sink⟩, h.2⟩
  | exhausted => exact trivial

theorem Result.Cut.inContext {α : Type} {n : Nat} {r : Eval.Point} {x y : Result α}
    (h : x.Cut n r y) (context : Context) :
    (x.inContext context).Cut n r (y.inContext context) := by
  cases h with
  | kept hkept =>
    have hcapped : (x.capped n).inContext context = (x.inContext context).capped n := by
      cases x <;> rfl
    rw [hcapped]
    refine .kept ?_
    cases x <;> exact hkept
  | stopped hp hstops htext hleaves =>
    refine .stopped hp hstops htext ?_
    cases x <;> exact hleaves

/-- What a computation does, as part of what runs at a point, on an output that stays open and on one
that closes after a number of lines. -/
structure Run.Truncates {α : Type} (n : Nat) (r : Eval.Point) (Q : α → Prop) (x : Run α)
    (m : Machine) : Prop where
  tidy : (x m).Tidy Q m.sink
  cut : m.sink.limit = none → m.sink.lines ≤ n → (x m).Cut n r (x (m.capped n))

namespace Run

variable {α β : Type} {n : Nat} {r : Eval.Point} {m : Machine} {Q : α → Prop} {Q' : β → Prop}

theorem truncates_pure {a : α} (hm : m.Tidy) (ha : Q a) : (pure a : Run α).Truncates n r Q m where
  tidy := ⟨ha, hm, .refl m.sink⟩
  cut _ hlines := .kept (x := .done a m) hlines

theorem truncates_fail {token : Token} {e : RuntimeFault} (hm : m.Tidy) :
    (fail token e : Run α).Truncates n r Q m where
  tidy := ⟨hm, .refl m.sink⟩
  cut _ hlines :=
    .kept (x := .fault ((token.diagnose (.runtime e)).inFile m.context.file) m) hlines

/-- A step that neither looks at the output nor changes it. -/
theorem truncates_done {x : Run α} {a : α} (m₁ : Machine) (hx : x m = .done a m₁)
    (hcapped : x (m.capped n) = .done a (m₁.capped n)) (hm : m₁.Tidy) (hsink : m₁.sink = m.sink)
    (ha : Q a) : x.Truncates n r Q m where
  tidy := by
    rw [hx]
    exact ⟨ha, hm, by rw [hsink]; exact .refl m.sink⟩
  cut _ hlines := by
    rw [hx, hcapped]
    exact .kept (x := .done a m₁) (by rwa [← hsink] at hlines)

theorem truncates_exhausted {x : Run α} (h : x m = .exhausted)
    (hcapped : x (m.capped n) = .exhausted) : x.Truncates n r Q m where
  tidy := by
    rw [h]
    exact trivial
  cut _ _ := by
    rw [h, hcapped]
    exact .kept (x := .exhausted) trivial

/-- A computation that stops where its output closes is not gone on with. -/
theorem truncates_bind {x : Run α} {f : α → Run β} (hx : x.Truncates n r Q m)
    (hf : ∀ a m₁, x m = .done a m₁ → m₁.Tidy → Q a → (f a).Truncates n r Q' m₁) :
    (x >>= f).Truncates n r Q' m := by
  obtain ⟨htidy, hcut⟩ := hx
  cases h : x m with
  | done a m₁ =>
    rw [h] at htidy hcut
    obtain ⟨ha, hm₁, hgrows⟩ := htidy
    have hrest := hf a m₁ h hm₁ ha
    refine ⟨by rw [bind_of_done h]; exact hrest.tidy.from hgrows, fun hlimit hlines => ?_⟩
    have hcut := hcut hlimit hlines
    rw [bind_of_done h]
    generalize hy : x (m.capped n) = y at hcut
    cases hcut with
    | kept hkept =>
      rw [bind_of_done hy]
      exact hrest.cut (hgrows.limit.trans hlimit) hkept
    | stopped hp hstops htext hleaves =>
      rw [bind_of_fault hy]
      exact .stopped hp hstops htext
        (hrest.tidy.leaves.imp fun _ hmore => Sink.Grows.trans hleaves hmore)
  | fault d m₁ =>
    rw [h] at htidy hcut
    refine ⟨by rw [bind_of_fault h]; exact htidy, fun hlimit hlines => ?_⟩
    have hcut := hcut hlimit hlines
    rw [bind_of_fault h]
    generalize hy : x (m.capped n) = y at hcut
    cases hcut with
    | kept hkept =>
      rw [bind_of_fault hy]
      exact .kept (x := .fault d m₁) hkept
    | stopped hp hstops htext hleaves =>
      rw [bind_of_fault hy]
      exact .stopped hp hstops htext hleaves
  | exhausted =>
    rw [h] at hcut
    refine ⟨by rw [bind_of_exhausted h]; exact trivial, fun hlimit hlines => ?_⟩
    have hcut := hcut hlimit hlines
    rw [bind_of_exhausted h]
    generalize hy : x (m.capped n) = y at hcut
    cases hcut with
    | kept _ =>
      rw [bind_of_exhausted hy]
      exact .kept (x := .exhausted) trivial
    | stopped hp hstops htext _ =>
      rw [bind_of_fault hy]
      exact .stopped hp hstops htext trivial

theorem truncates_ofExcept {token : Token} {e : Except RuntimeFault α} (hm : m.Tidy)
    (he : ∀ a, e = .ok a → Q a) : (ofExcept token e).Truncates n r Q m := by
  cases e with
  | ok a => exact truncates_pure hm (he a rfl)
  | error e => exact truncates_fail hm

/-- Computations that go alike from a machine, whether its output closes or not. -/
theorem Truncates.congr {x y : Run α} (hy : y.Truncates n r Q m) (h : x m = y m)
    (hcapped : x (m.capped n) = y (m.capped n)) : x.Truncates n r Q m where
  tidy := by
    rw [h]
    exact hy.tidy
  cut hlimit hlines := by
    rw [h, hcapped]
    exact hy.cut hlimit hlines

end Run

/-- If a statement returns a value, then one of a program whose texts literals can hold. -/
def Flow.Clean (flow : Flow) : Prop := flow.value.Clean

namespace Eval

open Run

variable {n : Nat} {r : Point} {m : Machine}

/-! ### Variables -/

theorem truncates_getVariable (hm : m.Tidy) (frame : Nat) (name : Token) :
    (getVariable frame name).Truncates n r Value.Clean m := by
  cases hv : lookup? m frame name with
  | none =>
    have hcapped : lookup? (m.capped n) frame name = none := hv
    exact (truncates_fail hm).congr (by rw [getVariable, hv]) (by rw [getVariable, hcapped])
  | some v =>
    have hcapped : lookup? (m.capped n) frame name = some v := hv
    obtain ⟨distance, -, hget⟩ := Option.bind_eq_some_iff.1 hv
    exact (truncates_pure hm (hm.store.getAt? hget)).congr (by rw [getVariable, hv]; rfl)
      (by rw [getVariable, hcapped]; rfl)

theorem truncates_setVariable (hm : m.Tidy) (frame : Nat) (name : Token) {v : Value}
    (hv : v.Clean) : (setVariable frame name v).Truncates n r (fun _ => True) m := by
  cases ht : locate? m frame name with
  | none =>
    have hcapped : locate? (m.capped n) frame name = none := ht
    exact (truncates_fail hm).congr (by rw [setVariable, ht]) (by rw [setVariable, hcapped])
  | some target =>
    have hcapped : locate? (m.capped n) frame name = some target := ht
    exact truncates_done { m with store := m.store.update target name.lexeme v }
      (by rw [setVariable, ht]) (by rw [setVariable, hcapped]; rfl)
      ⟨hm.store.update target name.lexeme hv, hm.sink⟩ rfl trivial

theorem truncates_defineVariable (hm : m.Tidy) (frame : Nat) (name : Token) {v : Value}
    (hv : v.Clean) : (defineVariable frame name v).Truncates n r (fun _ => True) m := by
  by_cases hbound : m.store.binds frame name.lexeme = true
  · have hcapped : (m.capped n).store.binds frame name.lexeme = true := hbound
    exact (truncates_fail hm).congr (by rw [defineVariable, if_pos hbound])
      (by rw [defineVariable, if_pos hcapped])
  · have hcapped : ¬(m.capped n).store.binds frame name.lexeme = true := hbound
    exact truncates_done { m with store := m.store.define frame name.lexeme v }
      (by rw [defineVariable, if_neg hbound]) (by rw [defineVariable, if_neg hcapped]; rfl)
      ⟨hm.store.define frame name.lexeme hv, hm.sink⟩ rfl trivial

theorem truncates_makeFunction (hm : m.Tidy) (frame : Nat) {name : Token} (params : List Token)
    {body : List Stmt} (hname : '\n' ∉ name.lexeme.toList) (hbody : Stmt.AllClean body) :
    (makeFunction frame name params body).Truncates n r Value.Clean m :=
  truncates_done { m with definitions := m.definitions + 1 } rfl rfl ⟨hm.store, hm.sink⟩ rfl
    (Value.clean_function ⟨hname, hbody⟩)

/-! ### Calls -/

/-- The only place where the output is written to. -/
theorem truncates_display {fuel frame : Nat} {v : Value} {paren : Token} {calls : List Closure}
    (hr : Reaches r ⟨fuel, frame, .call (.native .display) [v] paren, calls, m⟩) (hm : m.Tidy)
    (hv : v.Clean) : (display v paren).Truncates n r Value.Clean m := by
  have hline := Value.not_mem_toText hv
  have hwrote := m.sink.wrote_addLine hline
  have hdone : ∀ m : Machine, m.sink.isOpen = true →
      display v paren m = .done .empty { m with sink := m.sink.addLine v.toText } := by
    intro m hopen
    rw [display, Sink.writeLine_of_open hline hopen]
  have hstop : ∀ m : Machine, m.sink.isOpen = false →
      display v paren m = stop paren (.output (.cannotWrite "stdout")) m := by
    intro m hclosed
    rw [display, Sink.writeLine_of_closed _ hclosed]
  refine ⟨?_, fun hlimit hlines => ?_⟩
  · by_cases hopen : m.sink.isOpen = true
    · rw [hdone m hopen]
      exact ⟨Value.clean_empty, ⟨hm.store, hm.sink.trans ⟨_, hwrote⟩⟩, _, hwrote⟩
    · rw [hstop m (by simpa using hopen)]
      exact ⟨hm, .refl m.sink⟩
  · have hopen : m.sink.isOpen = true := by rw [Sink.isOpen, hlimit]
    rw [hdone m hopen]
    by_cases hroom : m.sink.lines < n
    · have hcapped : (m.capped n).sink.isOpen = true := decide_eq_true hroom
      rw [hdone _ hcapped]
      exact .kept (x := .done Value.empty { m with sink := m.sink.addLine v.toText }) hroom
    · -- the output closes here, so the point itself is where the computation stops
      have hcapped : (m.capped n).sink.isOpen = false := decide_eq_false hroom
      rw [hstop _ hcapped]
      have hfull : m.sink.lines = n := by omega
      exact .stopped hr ⟨paren, rfl, hfull, rfl⟩ rfl (Sink.Grows.refl _)

theorem truncates_native {fuel frame : Nat} {native : Native} {args : List Value} {paren : Token}
    {calls : List Closure}
    (hr : Reaches r ⟨fuel, frame, .call (.native native) args paren, calls, m⟩) (hm : m.Tidy)
    (harity : native.arity = args.length) (hargs : ∀ v ∈ args, v.Clean) :
    (callNative native args paren).Truncates n r Value.Clean m := by
  cases native with
  | display =>
    obtain ⟨v, rfl⟩ := List.length_eq_one_iff.1 harity.symm
    exact truncates_bind (truncates_display hr hm (hargs v List.mem_cons_self)) fun _ _ _ hm₁ _ =>
      truncates_pure hm₁ Value.clean_empty
  | time =>
    exact truncates_done { m with readings := m.readings + 1 } rfl rfl ⟨hm.store, hm.sink⟩
      rfl (Value.clean_number _)

theorem within_eq {α : Type} (context : Context) (x : Run α) (m : Machine) :
    within context x m = (x { m with context := context }).inContext m.context := by
  rw [within]
  cases x { m with context := context } <;> rfl

theorem truncates_within {α : Type} {Q : α → Prop} {context : Context} {x : Run α}
    (h : x.Truncates n r Q { m with context := context }) :
    (within context x).Truncates n r Q m where
  tidy := by
    rw [within_eq]
    exact h.tidy.inContext m.context
  cut hlimit hlines := by
    rw [within_eq, within_eq]
    exact (h.cut hlimit hlines).inContext m.context

/-- Work in a fresh frame. -/
theorem truncates_enterFrame {α : Type} {Q : α → Prop} {parent : Nat} {bindings : Bindings}
    {f : Nat → Run α}
    (h : (f m.store.frames.size).Truncates n r Q
      { m with store := (m.store.alloc parent bindings).2 }) :
    (enterFrame parent bindings >>= f).Truncates n r Q m :=
  ⟨h.tidy, h.cut⟩

/-! ### Points -/

/-- Literals can hold the texts that an activity starts with. -/
def Activity.Clean : Activity → Prop
  | .expr e => e.Clean
  | .exprs es => Expr.AllClean es
  | .call callee args _ => callee.Clean ∧ ∀ v ∈ args, v.Clean
  | .stmt s => s.Clean
  | .stmts ss => Stmt.AllClean ss
  | .block body => Stmt.AllClean body
  | .branches rest => rest.Clean
  | .times _ _ _ body => Stmt.AllClean body
  | .loop _ cond body _ => cond.Clean ∧ Stmt.AllClean body
  | .program ss => Stmt.AllClean ss

theorem Activity.Clean.values {activity : Activity} (h : activity.Clean) :
    ∀ v ∈ activity.values, v.Clean := by
  cases activity with
  | call callee args paren => exact List.forall_mem_cons.2 h
  | _ => simp [Activity.values]

/-- A point with a tidy machine and such an activity. -/
structure Point.Tidy (p : Point) : Prop where
  machine : p.machine.Tidy
  code : p.activity.Clean

/-- What runs at a point, on an output that stays open and on one that closes after a number of
lines. -/
def Point.Truncates (p : Point) (n : Nat) (r : Point) : Prop :=
  match p.activity with
  | .expr e => Run.Truncates n r Value.Clean (expr p.fuel p.frame e) p.machine
  | .exprs es =>
    Run.Truncates n r (fun vs => ∀ v ∈ vs, v.Clean) (all (expr p.fuel p.frame) es) p.machine
  | .call callee args paren =>
    Run.Truncates n r Value.Clean (Eval.call (stmt p.fuel) callee args paren) p.machine
  | .stmt s => Run.Truncates n r Flow.Clean (stmt p.fuel p.frame s) p.machine
  | .stmts ss => Run.Truncates n r Flow.Clean (sequence (stmt p.fuel p.frame) ss) p.machine
  | .block body => Run.Truncates n r Flow.Clean (Eval.block (stmt p.fuel) p.frame body) p.machine
  | .branches rest =>
    Run.Truncates n r Flow.Clean
      (Eval.branches (expr p.fuel p.frame) (Eval.block (stmt p.fuel) p.frame) rest) p.machine
  | .times count done rounds body =>
    Run.Truncates n r Flow.Clean
      (timesLoop (Eval.block (stmt p.fuel) p.frame body) count rounds done) p.machine
  | .loop token cond body rounds =>
    Run.Truncates n r Flow.Clean
      (whileLoop (Eval.condition (expr p.fuel p.frame) token cond)
        (Eval.block (stmt p.fuel) p.frame body) rounds) p.machine
  | .program ss => Run.Truncates n r (fun _ => True) (program p.fuel ss) p.machine

/-- What a part leaves behind is tidy, and so is its value. -/
theorem of_truncates {α : Type} {Q : α → Prop} {x : Run α} {a : α} {m₁ : Machine}
    (h : x.Truncates n r Q m) (hx : x m = .done a m₁) : m₁.Tidy ∧ Q a := by
  have htidy := h.tidy
  rw [hx] at htidy
  exact ⟨htidy.2.1, htidy.1⟩

theorem Point.Tidy.part {p q : Point} (hp : p.Tidy) (h : Starts p q)
    (ih : ∀ q, Starts p q → q.Tidy → q.Truncates n r) : q.Tidy := by
  obtain ⟨hm, hcode⟩ := hp
  cases h with
  | first hfirst => exact ⟨hm, Expr.Clean.first hcode hfirst⟩
  | value hfirst => exact ⟨hm, Stmt.Clean.first hcode hfirst⟩
  | block | firstExpr | branch | loop | firstStmt | otherwise | condition | round _ | whether
  | top =>
    first
    | exact ⟨hm, hcode⟩
    | exact ⟨hm, hcode.1⟩
  | right ha =>
    have hleft := ih _ (.first rfl) ⟨hm, hcode.1⟩
    exact ⟨(of_truncates hleft ha).1, hcode.2⟩
  | unsettled ha _ =>
    have hleft := ih _ (.first rfl) ⟨hm, hcode.1⟩
    exact ⟨(of_truncates hleft ha).1, hcode.2⟩
  | args hf =>
    have hcallee := ih _ (.first rfl) ⟨hm, hcode.1⟩
    exact ⟨(of_truncates hcallee hf).1, hcode.2⟩
  | call hf hargs =>
    obtain ⟨hm₁, hcallee⟩ := of_truncates (ih _ (.first rfl) ⟨hm, hcode.1⟩) hf
    obtain ⟨hm₂, hvalues⟩ := of_truncates (ih _ (.args hf) ⟨hm₁, hcode.2⟩) hargs
    exact ⟨hm₂, hcallee, hvalues⟩
  | moreExprs hv =>
    have hfirst := ih _ .firstExpr ⟨hm, hcode.1⟩
    exact ⟨(of_truncates hfirst hv).1, hcode.2⟩
  | body _ _ =>
    obtain ⟨hcallee, hargs⟩ := hcode
    refine ⟨⟨hm.store.alloc _ fun name v hv => ?_, hm.sink⟩, (hcallee.function _ rfl).body⟩
    rcases Bindings.of_lookup_insertAll hv with hv | hv
    · exact hargs v hv
    · cases hv
  | times hv _ =>
    have hcount := ih _ (.value rfl) ⟨hm, hcode.1⟩
    exact ⟨(of_truncates hcount hv).1, hcode.2⟩
  | moreStmts hs =>
    have hfirst := ih _ .firstStmt ⟨hm, hcode.1⟩
    exact ⟨(of_truncates hfirst hs).1, hcode.2⟩
  | inner => exact ⟨⟨hm.store.alloc _ (by simp), hm.sink⟩, hcode⟩
  | chosen hcond =>
    have hwhether := ih _ .condition ⟨hm, hcode.1⟩
    exact ⟨(of_truncates hwhether hcond).1, hcode.2.1⟩
  | passed hcond =>
    have hwhether := ih _ .condition ⟨hm, hcode.1⟩
    exact ⟨(of_truncates hwhether hcond).1, hcode.2.2⟩
  | moreRounds hlt hbody =>
    have hround := ih _ (.round hlt) ⟨hm, hcode⟩
    exact ⟨(of_truncates hround hbody).1, hcode⟩
  | again hcond =>
    have hwhether := ih _ .whether ⟨hm, hcode.1⟩
    exact ⟨(of_truncates hwhether hcond).1, hcode.2⟩
  | moreAgain hcond hbody =>
    obtain ⟨hm₁, -⟩ := of_truncates (ih _ .whether ⟨hm, hcode.1⟩) hcond
    have hround := ih _ (.again hcond) ⟨hm₁, hcode.2⟩
    exact ⟨(of_truncates hround hbody).1, hcode⟩
  | moreTop hs =>
    have hfirst := ih _ .top ⟨hm, hcode.1⟩
    exact ⟨(of_truncates hfirst hs).1, hcode.2⟩

/-! ### Evaluation -/

theorem truncates_truth {token : Token} {e : RuntimeFault} (hm : m.Tidy) (v : Value) :
    (truth token e v).Truncates n r (fun _ => True) m := by
  cases v with
  | bool b => exact truncates_pure hm trivial
  | _ => exact truncates_fail hm

theorem truncates_condition {eval : Expr → Run Value} {token : Token} {cond : Expr}
    (h : (eval cond).Truncates n r Value.Clean m) :
    (condition eval token cond).Truncates n r (fun _ => True) m :=
  truncates_bind h fun v _ _ hm₁ _ => truncates_truth hm₁ v

theorem truncates_repetitions {token : Token} (hm : m.Tidy) (v : Value) :
    (repetitions token v).Truncates n r (fun _ => True) m := by
  cases v with
  | number x =>
    rw [repetitions]
    split
    · exact truncates_pure hm trivial
    · exact truncates_fail hm
  | _ => exact truncates_fail hm

theorem truncates_normal (hm : m.Tidy) :
    (pure .normal : Run Flow).Truncates n r Flow.Clean m :=
  truncates_pure hm Value.clean_empty

theorem truncates_andThen {next : Run Flow} {flow : Flow} (hm : m.Tidy) (hflow : flow.Clean)
    (hnext : flow = .normal → next.Truncates n r Flow.Clean m) :
    (flow.andThen next).Truncates n r Flow.Clean m := by
  cases flow with
  | normal => exact hnext rfl
  | returned v => exact truncates_pure hm hflow

theorem truncates_expr {fuel frame : Nat} {e : Expr} {calls : List Closure}
    (hp : Point.Tidy ⟨fuel + 1, frame, .expr e, calls, m⟩)
    (ih : ∀ q, Starts ⟨fuel + 1, frame, .expr e, calls, m⟩ q → q.Truncates n r) :
    (exprWith (expr fuel) (stmt fuel) frame e).Truncates n r Value.Clean m := by
  obtain ⟨hm, hcode⟩ := hp
  cases e with
  | constant value => exact truncates_pure hm (Value.clean_ofConstant hcode)
  | «variable» name => exact truncates_getVariable hm frame name
  | group inner => exact ih _ (.first rfl)
  | unary op token operand =>
    refine truncates_bind (x := expr fuel frame operand) (ih _ (.first rfl)) fun v m₁ _ hm₁ _ => ?_
    exact truncates_ofExcept hm₁ fun w hw => UnaryOp.clean_apply hw
  | binary op token left right =>
    refine truncates_bind (x := expr fuel frame left) (ih _ (.first rfl)) fun a m₁ ha _ hwa => ?_
    refine truncates_bind (x := expr fuel frame right) (ih _ (.right ha)) fun b m₂ _ hm₂ hwb => ?_
    exact truncates_ofExcept hm₂ fun w hw => BinaryOp.clean_apply hwa hwb hw
  | logical op token left right =>
    refine truncates_bind (x := expr fuel frame left) (ih _ (.first rfl)) fun v m₁ hv hm₁ _ => ?_
    refine truncates_bind (truncates_truth hm₁ v) fun a m₂ ha hm₂ _ => ?_
    obtain ⟨rfl, rfl⟩ := truth_eq_done ha
    by_cases hsettled : op.settledBy a
    · rw [if_pos hsettled]
      exact truncates_pure hm₂ (Value.clean_bool a)
    · rw [if_neg hsettled]
      refine truncates_bind (x := expr fuel frame right)
        (ih _ (.unsettled hv (by simpa using hsettled))) fun w m₃ _ hm₃ _ => ?_
      exact truncates_bind (truncates_truth hm₃ w) fun b m₄ _ hm₄ _ =>
        truncates_pure hm₄ (Value.clean_bool b)
  | call callee args paren =>
    refine truncates_bind (x := expr fuel frame callee) (ih _ (.first rfl)) fun f m₁ hf _ _ => ?_
    exact truncates_bind (x := all (expr fuel frame) args) (ih _ (.args hf)) fun values m₂ hvalues _ _ =>
      ih _ (.call hf hvalues)

theorem truncates_exprs {fuel frame : Nat} {es : List Expr} {calls : List Closure} (hm : m.Tidy)
    (ih : ∀ q, Starts ⟨fuel, frame, .exprs es, calls, m⟩ q → q.Truncates n r) :
    (all (expr fuel frame) es).Truncates n r (fun vs => ∀ v ∈ vs, v.Clean) m := by
  cases es with
  | nil => exact truncates_pure hm (by simp)
  | cons e es =>
    refine truncates_bind (x := expr fuel frame e) (ih _ .firstExpr) fun v m₁ hv _ hwv => ?_
    refine truncates_bind (x := all (expr fuel frame) es) (ih _ (.moreExprs hv))
      fun vs m₂ _ hm₂ hwvs => ?_
    exact truncates_pure hm₂ (List.forall_mem_cons.2 ⟨hwv, hwvs⟩)

theorem truncates_call {fuel frame : Nat} {callee : Value} {args : List Value} {paren : Token}
    {calls : List Closure} (hr : Reaches r ⟨fuel, frame, .call callee args paren, calls, m⟩)
    (hp : Point.Tidy ⟨fuel, frame, .call callee args paren, calls, m⟩)
    (ih : ∀ q, Starts ⟨fuel, frame, .call callee args paren, calls, m⟩ q → q.Truncates n r) :
    (call (stmt fuel) callee args paren).Truncates n r Value.Clean m := by
  obtain ⟨hm, -, hargs⟩ := hp
  cases callee with
  | function f =>
    rw [call]
    split
    · rename_i harity
      by_cases hdepth : maxCallDepth ≤ m.context.depth
      · have hcapped : maxCallDepth ≤ (m.capped n).context.depth := hdepth
        exact (truncates_fail hm).congr (if_pos hdepth) (if_pos hcapped)
      · have hcapped : ¬maxCallDepth ≤ (m.capped n).context.depth := hdepth
        have hbody := ih _ (.body harity (Nat.lt_of_not_le hdepth))
        refine Truncates.congr (truncates_within (truncates_enterFrame ?_)) (if_neg hdepth)
          (if_neg hcapped)
        exact truncates_bind (x := sequence (stmt fuel m.store.frames.size) f.body) hbody
          fun flow m₁ _ hm₁ hflow => truncates_pure hm₁ hflow
    · exact truncates_fail hm
  | native native =>
    rw [call]
    split
    · rename_i harity
      exact truncates_native hr hm harity hargs
    · exact truncates_fail hm
  | _ => exact truncates_fail hm

theorem truncates_stmt {fuel frame : Nat} {s : Stmt} {calls : List Closure}
    (hp : Point.Tidy ⟨fuel + 1, frame, .stmt s, calls, m⟩)
    (ih : ∀ q, Starts ⟨fuel + 1, frame, .stmt s, calls, m⟩ q → q.Truncates n r) :
    (stmtWith fuel (expr fuel) (stmt fuel) frame s).Truncates n r Flow.Clean m := by
  obtain ⟨hm, hcode⟩ := hp
  cases s with
  | block body => exact ih _ .block
  | change target e =>
    refine truncates_bind (x := expr fuel frame e) (ih _ (.value rfl)) fun v m₁ _ hm₁ hv => ?_
    exact truncates_bind (truncates_setVariable hm₁ frame target hv) fun _ m₂ _ hm₂ _ =>
      truncates_normal hm₂
  | create name e =>
    refine truncates_bind (x := expr fuel frame e) (ih _ (.value rfl)) fun v m₁ _ hm₁ hv => ?_
    exact truncates_bind (truncates_defineVariable hm₁ frame name hv) fun _ m₂ _ hm₂ _ =>
      truncates_normal hm₂
  | define name params body =>
    refine truncates_bind (truncates_makeFunction hm frame params hcode.1 hcode.2)
      fun f m₁ _ hm₁ hf => ?_
    exact truncates_bind (truncates_defineVariable hm₁ frame name hf) fun _ m₂ _ hm₂ _ =>
      truncates_normal hm₂
  | expression e =>
    exact truncates_bind (x := expr fuel frame e) (ih _ (.value rfl)) fun _ m₁ _ hm₁ _ =>
      truncates_normal hm₁
  | branch token cond body rest => exact ih _ .branch
  | repeatTimes token e body =>
    refine truncates_bind (x := expr fuel frame e) (ih _ (.value rfl)) fun v m₁ hv hm₁ _ => ?_
    refine truncates_bind (truncates_repetitions hm₁ v) fun count m₂ hcount _ _ => ?_
    obtain rfl := repetitions_eq_done hcount
    exact ih _ (.times hv hcount)
  | repeatWhile token cond body => exact ih _ .loop
  | returnEmpty token => exact truncates_pure hm Value.clean_empty
  | returnWith token e =>
    exact truncates_bind (x := expr fuel frame e) (ih _ (.value rfl)) fun v m₁ _ hm₁ hv =>
      truncates_pure hm₁ hv

theorem truncates_stmts {fuel frame : Nat} {ss : List Stmt} {calls : List Closure} (hm : m.Tidy)
    (ih : ∀ q, Starts ⟨fuel, frame, .stmts ss, calls, m⟩ q → q.Truncates n r) :
    (sequence (stmt fuel frame) ss).Truncates n r Flow.Clean m := by
  cases ss with
  | nil => exact truncates_normal hm
  | cons s ss =>
    rw [sequence_cons]
    exact truncates_bind (x := stmt fuel frame s) (ih _ .firstStmt) fun flow m₁ hs hm₁ hflow =>
      truncates_andThen hm₁ hflow fun h => ih _ (.moreStmts (h ▸ hs))

theorem truncates_branches {fuel frame : Nat} {rest : Else} {calls : List Closure} (hm : m.Tidy)
    (ih : ∀ q, Starts ⟨fuel, frame, .branches rest, calls, m⟩ q → q.Truncates n r) :
    (branches (expr fuel frame) (block (stmt fuel) frame) rest).Truncates n r Flow.Clean m := by
  cases rest with
  | nothing => exact truncates_normal hm
  | block body => exact ih _ .otherwise
  | branch token cond body rest =>
    refine truncates_bind (truncates_condition (ih _ .condition)) fun go m₁ hgo _ _ => ?_
    cases go with
    | true => exact ih _ (.chosen (condition_eq_done hgo))
    | false => exact ih _ (.passed (condition_eq_done hgo))

theorem truncates_times {fuel frame count done rounds : Nat} {body : List Stmt}
    {calls : List Closure} (hm : m.Tidy)
    (ih : ∀ q, Starts ⟨fuel, frame, .times count done rounds body, calls, m⟩ q →
      q.Truncates n r) :
    (timesLoop (block (stmt fuel) frame body) count rounds done).Truncates n r Flow.Clean m := by
  cases rounds with
  | zero => exact truncates_exhausted rfl rfl
  | succ rounds =>
    rw [timesLoop_succ]
    split
    · rename_i hlt
      exact truncates_bind (x := block (stmt fuel) frame body) (ih _ (.round hlt))
        fun flow m₁ hbody hm₁ hflow =>
          truncates_andThen hm₁ hflow fun h => ih _ (.moreRounds hlt (h ▸ hbody))
    · exact truncates_normal hm

theorem truncates_loop {fuel frame rounds : Nat} {token : Token} {cond : Expr} {body : List Stmt}
    {calls : List Closure}
    (ih : ∀ q, Starts ⟨fuel, frame, .loop token cond body rounds, calls, m⟩ q →
      q.Truncates n r) :
    (whileLoop (condition (expr fuel frame) token cond) (block (stmt fuel) frame body)
      rounds).Truncates n r Flow.Clean m := by
  cases rounds with
  | zero => exact truncates_exhausted rfl rfl
  | succ rounds =>
    rw [whileLoop_succ]
    refine truncates_bind (truncates_condition (ih _ .whether)) fun go m₁ hgo hm₁ _ => ?_
    cases go with
    | true =>
      have hcond := condition_eq_done hgo
      exact truncates_bind (x := block (stmt fuel) frame body) (ih _ (.again hcond))
        fun flow m₂ hbody hm₂ hflow =>
          truncates_andThen hm₂ hflow fun h => ih _ (.moreAgain hcond (h ▸ hbody))
    | false => exact truncates_normal hm₁

/-- What runs at a point goes so if its parts do. -/
theorem truncates_of_parts {p : Point} (hr : Reaches r p) (hp : p.Tidy)
    (ih : ∀ q, Starts p q → q.Truncates n r) : p.Truncates n r := by
  obtain ⟨fuel, frame, activity, calls, m⟩ := p
  have hm : m.Tidy := hp.machine
  cases activity with
  | expr e =>
    cases fuel with
    | zero => exact truncates_exhausted rfl rfl
    | succ fuel => exact truncates_expr hp ih
  | exprs es => exact truncates_exprs hm ih
  | call callee args paren => exact truncates_call hr hp ih
  | stmt s =>
    cases fuel with
    | zero => exact truncates_exhausted rfl rfl
    | succ fuel => exact truncates_stmt hp ih
  | stmts ss => exact truncates_stmts hm ih
  | block body => exact truncates_enterFrame (ih _ .inner)
  | branches rest => exact truncates_branches hm ih
  | times count done rounds body => exact truncates_times hm ih
  | loop token cond body rounds => exact truncates_loop ih
  | program ss =>
    show Run.Truncates n r (fun _ => True) (program fuel ss) m
    cases ss with
    | nil => exact truncates_pure (a := ()) hm trivial
    | cons s ss =>
      rw [program_cons]
      exact truncates_bind (x := stmt fuel Store.globals s) (ih _ .top) fun flow m₁ hs _ _ =>
        ih _ (.moreTop hs)

/-- Whatever runs at a tidy point. -/
theorem truncates {p : Point} (n : Nat) (hr : Reaches r p) (hp : p.Tidy) : p.Truncates n r := by
  induction p using Starts.induction with
  | h p ih =>
    have hparts : ∀ q, Starts p q → q.Tidy → q.Truncates n r := fun q hq => ih q hq (hr.tail hq)
    exact truncates_of_parts hr hp fun q hq => hparts q hq (hp.part hq hparts)

/-- Every point that a run gets to is tidy if the run starts at one that is. -/
theorem tidy_of_reaches {p : Point} (hr : r.Tidy) (h : Reaches r p) : p.Tidy := by
  induction h with
  | refl => exact hr
  | tail hp hq ih => exact ih.part hq fun q' hq' => truncates 0 (hp.tail hq')

/-- What a point leaves behind, if it ends with values. -/
theorem Point.Truncates.tidy {p : Point} (h : p.Truncates n r) {vs : List Value} {m : Machine}
    (hresult : p.result = .done vs m) : m.Tidy ∧ ∀ v ∈ vs, v.Clean := by
  obtain ⟨fuel, frame, activity, calls, m₀⟩ := p
  have hvalue : ∀ v : Value, v.Clean → ∀ w ∈ [v], w.Clean := by simp
  have hflow : ∀ flow : Flow, flow.Clean → ∀ w ∈ flow.values, w.Clean := by
    intro flow hflow
    cases flow with
    | normal => simp [Flow.values]
    | returned v => exact hvalue v hflow
  cases activity with
  | expr e | call callee args paren =>
    obtain ⟨v, hdone, rfl⟩ := of_yield_done hresult
    obtain ⟨hm, hv⟩ := of_truncates h hdone
    exact ⟨hm, hvalue v hv⟩
  | exprs es =>
    obtain ⟨ws, hdone, rfl⟩ := of_yield_done hresult
    exact of_truncates h hdone
  | program ss =>
    obtain ⟨_, hdone, rfl⟩ := of_yield_done hresult
    exact ⟨(of_truncates h hdone).1, by simp⟩
  | _ =>
    obtain ⟨flow, hdone, rfl⟩ := of_yield_done hresult
    obtain ⟨hm, hf⟩ := of_truncates h hdone
    exact ⟨hm, hflow flow hf⟩

theorem Point.StopsAt.not_mem_toText {p : Point} {v : Value} {d : Diagnostic}
    (h : p.StopsAt n v d) (hp : p.Tidy) : '\n' ∉ v.toText.toList := by
  obtain ⟨fuel, frame, activity, calls, m⟩ := p
  obtain ⟨paren, hactivity, -, -⟩ := h
  obtain rfl : activity = _ := hactivity
  exact Value.not_mem_toText (hp.code.2 v List.mem_cons_self)

/-- A call of `display` that completes has written one line. -/
theorem Point.Tidy.displays {p : Point} (hp : p.Tidy) {v : Value} {paren : Token}
    (hactivity : p.activity = .call (.native .display) [v] paren) {vs : List Value} {m : Machine}
    (hresult : p.result = .done vs m) : Sink.Wrote [v.toText.toList] p.machine.sink m.sink := by
  obtain ⟨fuel, frame, activity, calls, m₀⟩ := p
  obtain rfl : activity = _ := hactivity
  have hline := Value.not_mem_toText (hp.code.2 v List.mem_cons_self)
  obtain ⟨w, hdone, -⟩ := of_yield_done hresult
  obtain ⟨_, m₁, hdisplay, hpure⟩ := of_bind_done (x := display v paren) hdone
  cases hpure
  by_cases hopen : m₀.sink.isOpen = true
  · rw [display, Sink.writeLine_of_open hline hopen] at hdisplay
    cases hdisplay
    exact m₀.sink.wrote_addLine hline
  · rw [display, Sink.writeLine_of_closed _ (by simpa using hopen)] at hdisplay
    cases hdisplay

end Eval

/-! ### Sessions -/

namespace Session

theorem tidy_entry {s : Session} (hs : s.store.Clean) (setting : Setting) {source : List Char}
    {program : Compiled}
    (h : compile s.globals (Text.normalizeNewlines source) = .ok program) :
    (s.entry setting program).Tidy where
  machine := ⟨hs, .refl _⟩
  code := Grammar.clean_of_read (Text.not_mem_normalizeNewlines source) (compile_eq_ok h).1

theorem clean_run {s : Session} (hs : s.store.Clean) (setting : Setting)
    (source : List Char) : (s.run setting source).1.store.Clean := by
  cases hcompile : compile s.globals (Text.normalizeNewlines source) with
  | error errors =>
    rw [run_of_compile_error setting source hcompile]
    exact hs
  | ok program =>
    have hruns : Run.Truncates 0 (s.entry setting program) (fun _ => True)
        (Eval.program setting.fuel program.stmts) (s.entry setting program).machine :=
      Eval.truncates 0 .refl (tidy_entry hs setting hcompile)
    have htidy := hruns.tidy
    rw [run_of_program setting hcompile]
    cases hr : Eval.program setting.fuel program.stmts (s.entry setting program).machine with
    | done _ m =>
      rw [hr] at htidy
      exact htidy.2.1.store
    | fault d m =>
      rw [hr] at htidy
      exact htidy.1.store
    | exhausted => exact hs

/-- Literals can hold the texts of all global variables and of all that functions can reach,
whatever has run. -/
theorem clean_after (runs : List (Setting × List Char)) : (after runs).store.Clean :=
  after_induction (p := fun s => s.store.Clean) Store.clean_initial
    (fun _ setting source hs => clean_run hs setting source) runs

/-- The session and the transcript of a run whose program ends so. -/
def ended (s : Session) : Result Unit → Session × Transcript
  | .done _ m => (s.keep m, ⟨m.sink.text, .success⟩)
  | .fault d m => (s.keep m, ⟨m.sink.text, .failure [d]⟩)
  | .exhausted => (s, ⟨"", .exhausted⟩)

theorem run_eq_ended {s : Session} (setting : Setting) {source : List Char} {program : Compiled}
    (h : compile s.globals (Text.normalizeNewlines source) = .ok program) :
    s.run setting source = ended { s with sources := s.sources ++ [Text.normalizeNewlines source] }
      (Eval.program setting.fuel program.stmts (s.entry setting program).machine) := by
  rw [run_of_program setting h]
  dsimp only
  cases Eval.program setting.fuel program.stmts (s.entry setting program).machine <;> rfl

theorem ended_capped (s : Session) (n : Nat) (x : Result Unit) :
    s.ended (x.capped n) = s.ended x := by
  cases x <;> rfl

/-- The machine that a program which ends leaves behind. -/
theorem exists_machine (s : Session) {x : Result Unit} {out : Sink}
    (h : x.Tidy (fun _ => True) out) (hends : x ≠ .exhausted) :
    ∃ m, (s.ended x).2.output = m.sink.text ∧ m.Tidy ∧ ∀ P, x.Leaves P → P m := by
  cases x with
  | done _ m => exact ⟨m, rfl, h.2.1, fun _ hP => hP⟩
  | fault d m => exact ⟨m, rfl, h.1, fun _ hP => hP⟩
  | exhausted => exact absurd rfl hends

/-- A program on an output that closes after some lines, beside one on an output that stays open. -/
theorem ended_cut (s : Session) {n : Nat} {r : Eval.Point} {x y : Result Unit} (hr : r.Tidy)
    (htidy : x.Tidy (fun _ => True) r.machine.sink) (h : x.Cut n r y) (hends : x ≠ .exhausted) :
    let written := Text.lines (s.ended x).2.output.toList
    (written.length ≤ n → s.ended y = s.ended x) ∧
      (n < written.length →
        (s.ended y).2.output.toList = (written.take n).flatMap Text.Line.chars ∧
          ∃ p v d, Eval.Reaches r p ∧ p.StopsAt n v d ∧ written[n]? = some ⟨v.toText.toList, true⟩ ∧
            (s.ended y).2.ending = .failure [d]) := by
  intro written
  obtain ⟨m, houtput, hm, hleft⟩ := s.exists_machine htidy hends
  have hlength : written.length = m.sink.lines := by
    show (Text.lines (s.ended x).2.output.toList).length = _
    rw [houtput, hm.sink.length_lines]
  cases h with
  | kept hkept =>
    have hle : m.sink.lines ≤ n := hleft _ hkept
    exact ⟨fun _ => s.ended_capped n x, fun hlt => by omega⟩
  | @stopped p v d m' hp hstops htext hleaves =>
    have hgrows : (p.machine.sink.addLine v.toText).Grows m.sink := hleft _ hleaves
    have htidy := Eval.tidy_of_reaches hr hp
    have hline := hstops.not_mem_toText htidy
    obtain ⟨paren, hactivity, hlines, hd⟩ := hstops
    have hmore : n + 1 ≤ m.sink.lines := by
      rw [← hlines]
      exact hgrows.lines_le
    refine ⟨fun hle => by omega, fun _ => ⟨?_, p, v, d, hp, ⟨paren, hactivity, hlines, hd⟩, ?_, rfl⟩⟩
    · show m'.sink.text.toList = ((Text.lines (s.ended x).2.output.toList).take n).flatMap _
      rw [houtput, htext, ← hlines,
        htidy.machine.sink.take_lines (.trans ⟨_, p.machine.sink.wrote_addLine hline⟩ hgrows)]
    · show (Text.lines (s.ended x).2.output.toList)[n]? = _
      rw [houtput, ← hlines, htidy.machine.sink.getElem?_lines hline hgrows]

/-- A run on an output that closes after some lines, beside a run on one that stays open. -/
theorem run_cut {s : Session} (hs : s.store.Clean) (setting : Setting) (source : List Char)
    (n : Nat) (hends : (s.run { setting with limit := none } source).2.ending ≠ .exhausted) :
    let full := s.run { setting with limit := none } source
    let cut := s.run { setting with limit := some n } source
    let written := Text.lines full.2.output.toList
    (written.length ≤ n → cut = full) ∧
      (n < written.length →
        cut.2.output.toList = (written.take n).flatMap Text.Line.chars ∧
          ∃ p v d, s.Visits { setting with limit := none } source p ∧ p.StopsAt n v d ∧
            written[n]? = some ⟨v.toText.toList, true⟩ ∧ cut.2.ending = .failure [d]) := by
  intro full cut written
  cases hcompile : compile s.globals (Text.normalizeNewlines source) with
  | error errors =>
    have hfull : full = _ := run_of_compile_error { setting with limit := none } source hcompile
    have hcut : cut = _ := run_of_compile_error { setting with limit := some n } source hcompile
    have hwritten : written = [] := by
      show Text.lines full.2.output.toList = []
      rw [hfull]
      rfl
    refine ⟨fun _ => hcut.trans hfull.symm, fun hlt => ?_⟩
    rw [hwritten] at hlt
    exact absurd hlt (Nat.not_lt_zero n)
  | ok program =>
    have hfull := run_eq_ended { setting with limit := none } hcompile
    have hcut := run_eq_ended { setting with limit := some n } hcompile
    have hentry := tidy_entry hs { setting with limit := none } hcompile
    obtain ⟨htidy, hcuts⟩ : Run.Truncates n (s.entry { setting with limit := none } program)
        (fun _ => True) (Eval.program setting.fuel program.stmts)
        (s.entry { setting with limit := none } program).machine := Eval.truncates n .refl hentry
    have hruns : Eval.program setting.fuel program.stmts
        (s.entry { setting with limit := none } program).machine ≠ .exhausted := by
      intro hexhausted
      rw [hfull, hexhausted] at hends
      exact hends rfl
    obtain ⟨hkept, hstopped⟩ :=
      ended_cut { s with sources := s.sources ++ [Text.normalizeNewlines source] } hentry htidy
        (hcuts rfl (Nat.zero_le n)) hruns
    rw [← hfull] at hkept hstopped
    refine ⟨fun hle => hcut.trans (hkept hle), fun hlt => ?_⟩
    obtain ⟨houtput, p, v, d, hp, hstops, hline, hending⟩ := hstopped hlt
    have hcut' : cut = _ := hcut
    rw [hcut']
    exact ⟨houtput, p, v, d, ⟨program, hcompile, hp⟩, hstops, hline, hending⟩

/-- A text runs on an output that closes after `n` lines as it does on one that stays open, if it
writes at most `n` lines there; else it writes the first `n` of them and stops with the one fault that
the output cannot be written to, at the closing parenthesis of the call of `display` that would have
written the next line. This is because no text that a program can come to holds a line feed, so that
each completed call of `display` writes one whole line; nor does it hold a carriage return or a
quote. -/
theorem sink_truncates (runs : List (Setting × List Char)) (setting : Setting)
    (source : List Char) :
    let s := after runs
    let full := s.run { setting with limit := none } source
    let written := Text.lines full.2.output.toList
    (full.2.ending ≠ .exhausted → ∀ n,
      let cut := s.run { setting with limit := some n } source
      (written.length ≤ n → cut = full) ∧
        (n < written.length →
          cut.2.output.toList = (written.take n).flatMap Text.Line.chars ∧
            ∃ p v d, s.Visits { setting with limit := none } source p ∧ p.StopsAt n v d ∧
              written[n]? = some ⟨v.toText.toList, true⟩ ∧ cut.2.ending = .failure [d] ∧
              d.cause.toText = "IOError: Unable to write to stdout.")) ∧
      s.store.Clean ∧
      ∀ p, s.Visits setting source p →
        p.machine.store.Clean ∧ (∀ v ∈ p.activity.values, v.Clean) ∧
          ∀ vs m, p.result = .done vs m →
            m.store.Clean ∧ (∀ v ∈ vs, v.Clean) ∧
              ∀ v paren, p.activity = .call (.native .display) [v] paren →
                p.machine.sink.Wrote [v.toText.toList] m.sink := by
  intro s full written
  have hs : s.store.Clean := clean_after runs
  refine ⟨fun hends n => ?_, hs, ?_⟩
  · obtain ⟨hkept, hstopped⟩ := run_cut hs setting source n hends
    refine ⟨hkept, fun hlt => ?_⟩
    obtain ⟨houtput, p, v, d, hp, hstops, hline, hending⟩ := hstopped hlt
    refine ⟨houtput, p, v, d, hp, hstops, hline, hending, ?_⟩
    obtain ⟨paren, -, -, rfl⟩ := hstops
    rfl
  · rintro p ⟨program, hcompile, hp⟩
    have htidy := Eval.tidy_of_reaches (tidy_entry hs setting hcompile) hp
    refine ⟨htidy.machine.store, htidy.code.values, fun vs m hdone => ?_⟩
    obtain ⟨hm, hvs⟩ := (Eval.truncates 0 .refl htidy).tidy hdone
    exact ⟨hm.store, hvs, fun v paren hactivity => htidy.displays hactivity hdone⟩

/-- An output that closes before the only line of a text. -/
theorem sink_truncates_closed :
    let setting : Setting := ⟨4, fun _ => Number.ofDecimalText ['0'], none⟩
    let source := ['d', 'i', 's', 'p', 'l', 'a', 'y', '(', '"', 'a', '"', ')', '\n']
    let run (limit : Option Nat) := (after []).run { setting with limit := limit } source
    (run none).2 = ⟨"a\n", .success⟩ ∧ (run (some 0)).2.output.toList = [] ∧
      run (some 1) = run none := by
  intro setting source run
  have hfull : (run none).2 = ⟨"a\n", .success⟩ := by
    let name : Token := ⟨.identifier, "display", none, 1, ⟨0, 7⟩⟩
    let call : Expr :=
      .call (.variable name) [.constant (.text "a")] ⟨.rightParen, ")", none, 1, ⟨11, 12⟩⟩
    have hcompile : compile (after []).globals (Text.normalizeNewlines source) =
        .ok ⟨[.expression call], ScopeMap.ofReferences [(⟨0, 7⟩, 0)]⟩ := rfl
    have hscope : (ScopeMap.ofReferences [(⟨0, 7⟩, 0)])[(⟨0, 7⟩ : Span)]? = some 0 :=
      ScopeMap.getElem?_ofReferences (by decide) List.mem_cons_self
    show ((after []).run _ source).2 = _
    rw [run_eq_ended _ hcompile]
    generalize ScopeMap.ofReferences [(⟨0, 7⟩, 0)] = scope at hscope
    let m : Machine := (after []).machine setting scope 0
    have hname : Eval.expr 2 Store.globals (.variable name) m = .done (.native .display) m :=
      Eval.expr_variable_of_bound hscope rfl 1
    have hcall : Eval.expr 3 Store.globals call m =
        .done .empty { m with sink := m.sink.addLine "a" } := Run.bind_of_done hname
    have hstmt : Eval.stmt 4 Store.globals (.expression call) m =
        .done .normal { m with sink := m.sink.addLine "a" } := Run.bind_of_done hcall
    have hprogram : Eval.program 4 [.expression call] m =
        .done () { m with sink := m.sink.addLine "a" } := by
      rw [Eval.program, hstmt]
      rfl
    exact (congrArg (fun x => (ended { after [] with sources := [source] } x).2) hprogram).trans rfl
  -- the run is not to be computed again
  clear_value source setting
  obtain ⟨hcut, -, -⟩ := sink_truncates [] setting source
  have hends : (run none).2.ending ≠ .exhausted := by
    rw [hfull]
    decide
  have hwritten : Text.lines (run none).2.output.toList = [⟨['a'], true⟩] := by
    rw [hfull]
    decide
  obtain ⟨-, hnone⟩ := hcut hends 0
  obtain ⟨hall, -⟩ := hcut hends 1
  obtain ⟨houtput, -⟩ := hnone (by rw [hwritten]; decide)
  exact ⟨hfull, houtput.trans (by simp), hall (by rw [hwritten]; decide)⟩

end Session

end Offside
