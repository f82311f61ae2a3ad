import Mathlib.Data.List.Chain
import Offside.Proofs.Concatenation

/-!
# Line endings

A text may come with three kinds of line endings, and all of them are made into line feeds before it
is read. That takes two replacements of the whole text, the first of which makes new neighbours for
what the second looks at. Together they are one pass from left to right.

* `Text.unify`: the single pass;
* `Text.normalizeNewlines_eq_unify`: the two replacements are that pass;
* `Text.Terminator`, `Text.WrittenLine`: lines with the endings they were written with;
* `Text.unify_written`: what the pass makes of such lines;
* `Session.line_endings_unified`: what is known about line endings, and that runs do not see them.
-/

namespace Offside

namespace Text

/-! ### A single pass -/

/-- One pass from left to right: a carriage return and line feed together become one line feed, as
does a carriage return before anything else, and every other character is kept. -/
def unify : List Char → List Char
  | [] => []
  | '\r' :: '\n' :: cs => '\n' :: unify cs
  | c :: cs => (if c = '\r' then '\n' else c) :: unify cs

/-- Joining pairs first does not change which returns stand alone. -/
theorem feedReturns_joinPairs (cs : List Char) : feedReturns (joinPairs cs) = unify cs := by
  induction cs using unify.induct with
  | case1 => rfl
  | case2 cs ih =>
    rw [joinPairs, unify, ← ih]
    rfl
  | case3 c cs hpair ih =>
    rw [joinPairs, unify, ← ih]
    · rfl
    · exact hpair
    · exact hpair

theorem unify_of_not_mem {cs : List Char} (h : '\r' ∉ cs) : unify cs = cs := by
  induction cs using unify.induct with
  | case1 => rfl
  | case2 cs ih => exact absurd List.mem_cons_self h
  | case3 c cs hpair ih =>
    obtain ⟨hc, hcs⟩ := List.ne_and_not_mem_of_not_mem_cons h
    rw [unify, if_neg hc.symm, ih hcs]
    exact hpair

/-- The two replacements, and the shortcut for texts without carriage returns, are the pass. -/
theorem normalizeNewlines_eq_unify (cs : List Char) : normalizeNewlines cs = unify cs := by
  unfold normalizeNewlines
  split
  · exact feedReturns_joinPairs cs
  · next h =>
    have hnone : '\r' ∉ cs := by simpa [hasReturn] using h
    exact (unify_of_not_mem hnone).symm

theorem normalizeNewlines_idem (cs : List Char) :
    normalizeNewlines (normalizeNewlines cs) = normalizeNewlines cs :=
  normalizeNewlines_of_not_mem (not_mem_normalizeNewlines cs)

/-! ### Lines as they were written -/

/-- The ways in which a line can be ended. -/
inductive Terminator
  | feed | pair | carriage
  deriving DecidableEq, Repr

/-- The characters that end a line. -/
def Terminator.chars : Terminator → List Char
  | .feed => ['\n']
  | .pair => ['\r', '\n']
  | .carriage => ['\r']

/-- A line with the ending it was written with. -/
structure WrittenLine where
  text : List Char
  ending : Terminator
  deriving DecidableEq, Repr

namespace WrittenLine

/-- The line has no line ending inside. -/
def Whole (l : WrittenLine) : Prop := '\r' ∉ l.text ∧ '\n' ∉ l.text

/-- The endings of two lines in a row stay apart: a lone carriage return and the line feed of an
empty line would be taken for a pair. -/
def Apart (l l' : WrittenLine) : Prop :=
  ¬ (l.ending = .carriage ∧ l'.text = [] ∧ l'.ending = .feed)

end WrittenLine

/-- Lines as they were written. -/
def written (lines : List WrittenLine) : List Char :=
  lines.flatMap fun l => l.text ++ l.ending.chars

/-- The same lines, each ended by a line feed. -/
def fed (lines : List WrittenLine) : List Char :=
  lines.flatMap fun l => l.text ++ ['\n']

theorem written_cons (l : WrittenLine) (lines : List WrittenLine) :
    written (l :: lines) = l.text ++ (l.ending.chars ++ written lines) := by
  rw [written, List.flatMap_cons, List.append_assoc]
  rfl

theorem fed_cons (l : WrittenLine) (lines : List WrittenLine) :
    fed (l :: lines) = l.text ++ '\n' :: fed lines := by
  rw [fed, List.flatMap_cons, List.append_assoc]
  rfl

/-- Characters other than carriage returns are kept, whatever follows them. -/
theorem unify_append {as : List Char} (h : '\r' ∉ as) (bs : List Char) :
    unify (as ++ bs) = as ++ unify bs := by
  induction as with
  | nil => rfl
  | cons c as ih =>
    obtain ⟨hc, has⟩ := List.ne_and_not_mem_of_not_mem_cons h
    have hpair : ∀ ds, c = '\r' → as ++ bs = '\n' :: ds → False := fun _ hreturn _ =>
      hc hreturn.symm
    rw [List.cons_append, unify, if_neg hc.symm, ih has, List.cons_append]
    exact hpair

/-- A carriage return that no line feed follows. -/
theorem unify_carriage {cs : List Char} (h : cs.head? ≠ some '\n') :
    unify ('\r' :: cs) = '\n' :: unify cs := by
  rw [unify, if_pos rfl]
  rintro ds - rfl
  exact h rfl

/-- A text of lines starts with a line feed only if its first line is empty and ended by one. -/
theorem head?_written {l : WrittenLine} {lines : List WrittenLine} (hl : l.Whole)
    (h : (written (l :: lines)).head? = some '\n') : l.text = [] ∧ l.ending = .feed := by
  obtain ⟨text, ending⟩ := l
  rw [written_cons] at h
  cases text with
  | nil => cases ending with
    | feed => exact ⟨rfl, rfl⟩
    | pair | carriage => cases h
  | cons c cs =>
    obtain rfl := Option.some.inj h
    exact absurd List.mem_cons_self hl.2

/-- Whatever ends a line becomes one line feed. -/
theorem unify_written {lines : List WrittenLine} (hwhole : ∀ l ∈ lines, l.Whole)
    (hapart : lines.IsChain WrittenLine.Apart) : unify (written lines) = fed lines := by
  induction lines with
  | nil => rfl
  | cons l lines ih =>
    obtain ⟨hl, hlines⟩ := List.forall_mem_cons.1 hwhole
    have hrest := ih hlines hapart.tail
    rw [written_cons, fed_cons, unify_append hl.1, ← hrest]
    congr 1
    cases hending : l.ending with
    | feed => exact unify_append (by decide : '\r' ∉ ['\n']) _
    | pair => rfl
    | carriage =>
      refine unify_carriage fun hhead => ?_
      cases lines with
      | nil => cases hhead
      | cons l' lines =>
        have hl' : l'.Whole := hlines l' List.mem_cons_self
        exact (List.isChain_cons_cons.1 hapart).1 ⟨hending, head?_written hl' hhead⟩

end Text

/-! ### Runs -/

namespace Session

/-- Line endings are made one. Normalizing a text is the single pass, leaves no carriage return, and
changes nothing the second time. Lines come out as they were written, each with a line feed for its
ending, as long as no two endings run together. So a run of a text is the run of the text that it is
normalized to: output, diagnostics and session are the same. -/
theorem line_endings_unified (cs : List Char) :
    Text.normalizeNewlines cs = Text.unify cs ∧ '\r' ∉ Text.normalizeNewlines cs ∧
      Text.normalizeNewlines (Text.normalizeNewlines cs) = Text.normalizeNewlines cs ∧
      (∀ lines : List Text.WrittenLine, (∀ l ∈ lines, l.Whole) →
        lines.IsChain Text.WrittenLine.Apart → cs = Text.written lines →
          Text.normalizeNewlines cs = Text.fed lines) ∧
      ∀ (s : Session) (setting : Setting),
        s.run setting cs = s.run setting (Text.normalizeNewlines cs) := by
  refine ⟨Text.normalizeNewlines_eq_unify cs, Text.not_mem_normalizeNewlines cs,
    Text.normalizeNewlines_idem cs, ?_, fun s setting => ?_⟩
  · rintro lines hwhole hapart rfl
    rw [Text.normalizeNewlines_eq_unify, Text.unify_written hwhole hapart]
  · unfold run
    rw [Text.normalizeNewlines_idem]

/-- Lines that end in all three ways, with two empty ones among them. -/
theorem line_endings_unified_mixed :
    let lines : List Text.WrittenLine :=
      [⟨['a'], .carriage⟩, ⟨[], .pair⟩, ⟨[], .feed⟩, ⟨['b'], .carriage⟩, ⟨['c'], .carriage⟩]
    (∀ l ∈ lines, l.Whole) ∧ lines.IsChain Text.WrittenLine.Apart ∧
      Text.normalizeNewlines "a\r\r\n\nb\rc\r".toList = "a\n\n\nb\nc\n".toList := by
  intro lines
  have hwhole : ∀ l ∈ lines, l.Whole := by
    unfold Text.WrittenLine.Whole
    decide
  have hapart : lines.IsChain Text.WrittenLine.Apart := by
    unfold Text.WrittenLine.Apart
    decide
  exact ⟨hwhole, hapart,
    (line_endings_unified "a\r\r\n\nb\rc\r".toList).2.2.2.1 lines hwhole hapart (by decide)⟩

end Session

end Offside
