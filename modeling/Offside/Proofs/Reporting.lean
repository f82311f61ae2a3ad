import Mathlib.Data.Prod.Lex
import Mathlib.Order.WithBot
import Offside.Report

/-!
# The order of a report

A report shows its diagnostics by source text, those without one first, and then by what they cover;
those at one place keep their order. That leaves no choice: what is shown is the one list in order
that agrees with the given one at every place. Every diagnostic is shown on its own there, in a form
that depends on its own source text only.

* `Report.position`: where a diagnostic stands in the order;
* `Report.SameTies`: lists that agree at every position;
* `Report.eq_of_ascending`: a list in order is determined by what it holds at every position;
* `Report.render_eq_join`: a report is put together from the reports of single diagnostics;
* `Report.entry_eq_toLine_iff`: when a diagnostic is given on one line;
* `Report.render_canonical`: all of this.
-/

namespace Offside

namespace Report

/-! ### Positions -/

/-- The position of a diagnostic: its source text, none being the least, then the start and the end
of what it covers. -/
def position (d : Diagnostic) : WithBot ℕ ×ₗ ℕ ×ₗ ℕ :=
  toLex (d.file.elim ⊥ WithBot.some, toLex (d.span.start, d.span.stop))

theorem precedes_iff (a b : Diagnostic) : precedes a b = true ↔ position a ≤ position b := by
  have hspan : (a.span.start < b.span.start ∨
      a.span.start = b.span.start ∧ a.span.stop ≤ b.span.stop) ↔
        toLex (a.span.start, a.span.stop) ≤ toLex (b.span.start, b.span.stop) := by
    rw [Prod.Lex.toLex_le_toLex]
  have hfile :
      (fileKey a < fileKey b ↔ a.file.elim ⊥ WithBot.some < b.file.elim ⊥ WithBot.some) ∧
        (fileKey a = fileKey b ↔ a.file.elim ⊥ WithBot.some = b.file.elim ⊥ WithBot.some) := by
    unfold fileKey
    cases a.file <;> cases b.file <;> simp
  rw [position, position, Prod.Lex.toLex_le_toLex, ← hspan, ← hfile.1, ← hfile.2]
  simp [precedes]

theorem precedes_trans (a b c : Diagnostic) (hab : precedes a b = true)
    (hbc : precedes b c = true) : precedes a c = true := by
  rw [precedes_iff] at hab hbc ⊢
  exact hab.trans hbc

theorem precedes_total (a b : Diagnostic) : (precedes a b || precedes b a) = true := by
  rw [Bool.or_eq_true, precedes_iff, precedes_iff]
  exact le_total _ _

/-- Two lists hold the same diagnostics at every position, in the same order. -/
def SameTies (as bs : List Diagnostic) : Prop :=
  ∀ k, as.filter (position · = k) = bs.filter (position · = k)

/-- The list is in the order of positions. -/
def Ascending (as : List Diagnostic) : Prop := as.Pairwise fun a b => position a ≤ position b

variable {as bs : List Diagnostic} {a b d : Diagnostic}

namespace SameTies

theorem symm (h : SameTies as bs) : SameTies bs as := fun k => (h k).symm

theorem trans {cs : List Diagnostic} (h : SameTies as bs) (h' : SameTies bs cs) : SameTies as cs :=
  fun k => (h k).trans (h' k)

theorem mem (h : SameTies as bs) (ha : a ∈ as) : a ∈ bs := by
  have hmem : a ∈ as.filter (position · = position a) := List.mem_filter.2 ⟨ha, by simp⟩
  rw [h] at hmem
  exact (List.mem_filter.1 hmem).1

theorem tail (h : SameTies (d :: as) (d :: bs)) : SameTies as bs := by
  intro k
  have hk := h k
  by_cases hd : position d = k
  · simpa [hd] using hk
  · simpa [hd] using hk

/-- Where a list starts, the other one has the same diagnostic first at its position. -/
theorem head (h : SameTies (a :: as) (b :: bs)) (hab : position a = position b) : a = b := by
  have hk := h (position b)
  rw [List.filter_cons_of_pos (by simpa using hab), List.filter_cons_of_pos (by simp)] at hk
  exact (List.cons.inj hk).1

end SameTies

/-- A list in order is determined by what it holds at every position. -/
theorem eq_of_ascending (ha : Ascending as) (hb : Ascending bs) (h : SameTies as bs) : as = bs := by
  induction as generalizing bs with
  | nil =>
    cases bs with
    | nil => rfl
    | cons b bs => cases h.symm.mem List.mem_cons_self
  | cons a as ih =>
    cases bs with
    | nil => cases h.mem List.mem_cons_self
    | cons b bs =>
      obtain ⟨hfirst, has⟩ := List.pairwise_cons.1 ha
      obtain ⟨hfirst', hbs⟩ := List.pairwise_cons.1 hb
      -- each of the first ones is somewhere in the other list, so neither comes before the other
      have hle : position a ≤ position b := by
        rcases List.mem_cons.1 (h.symm.mem List.mem_cons_self) with rfl | hmem
        · exact le_rfl
        · exact hfirst b hmem
      have hge : position b ≤ position a := by
        rcases List.mem_cons.1 (h.mem List.mem_cons_self) with rfl | hmem
        · exact le_rfl
        · exact hfirst' a hmem
      obtain rfl := h.head (le_antisymm hle hge)
      rw [ih has hbs h.tail]

/-! ### Sorting -/

theorem ascending_mergeSort (as : List Diagnostic) : Ascending (as.mergeSort precedes) := by
  exact (List.pairwise_mergeSort precedes_trans precedes_total as).imp fun h =>
    (precedes_iff _ _).1 h

/-- Sorting keeps the order of the diagnostics at one position: they are in order already. -/
theorem sameTies_mergeSort (as : List Diagnostic) : SameTies (as.mergeSort precedes) as := by
  intro k
  have hperm := (List.mergeSort_perm as precedes).filter (position · = k)
  have hordered : (as.filter (position · = k)).Pairwise (precedes · · = true) := by
    refine List.pairwise_of_forall_mem_list fun a ha b hb => ?_
    have hka : position a = k := by simpa using (List.mem_filter.1 ha).2
    have hkb : position b = k := by simpa using (List.mem_filter.1 hb).2
    rw [precedes_iff, hka, hkb]
  have hsub := (List.sublist_mergeSort precedes_trans precedes_total hordered
    List.filter_sublist).filter (position · = k)
  rw [List.filter_filter] at hsub
  simp only [Bool.and_self] at hsub
  exact (hsub.eq_of_length hperm.length_eq.symm).symm

/-! ### Single diagnostics -/

@[simp] theorem render_singleton (sources : List (List Char)) (d : Diagnostic) :
    render sources [d] = entry sources d := by
  simp [render]

/-- A report is put together from the reports of single diagnostics. -/
theorem render_eq_join (sources : List (List Char)) (as : List Diagnostic) :
    render sources as =
      String.join ((as.mergeSort precedes).map fun d => render sources [d]) := by
  simp only [render_singleton]
  rfl

theorem head?_toList_append {s t : String} {c : Char} (h : s.toList.head? = some c) :
    (s ++ t).toList.head? = some c := by
  rw [String.toList_append, List.head?_append, h]
  rfl

/-- The long form does not start like the form on one line. -/
theorem full_ne_toLine (source : List Char) (d : Diagnostic) :
    full source d ≠ d.toLine ++ "\n" := by
  intro h
  have hfull : (full source d).toList.head? = some 'e' := by
    unfold full
    repeat refine head?_toList_append ?_
    rfl
  have hline : (d.toLine ++ "\n").toList.head? = some '[' := by
    unfold Diagnostic.toLine
    repeat refine head?_toList_append ?_
    rfl
  rw [h, hline] at hfull
  cases hfull

/-- A diagnostic is given on one line exactly if it has no source text or ends past it. -/
theorem entry_eq_toLine_iff (sources : List (List Char)) (d : Diagnostic) :
    entry sources d = d.toLine ++ "\n" ↔
      sources.length ≤ d.file.getD 0 ∨
        ∃ source, sources[d.file.getD 0]? = some source ∧ Text.size source < d.span.stop := by
  rw [entry]
  cases hsource : sources[d.file.getD 0]? with
  | none => simpa using List.getElem?_eq_none_iff.1 hsource
  | some source =>
    have hlt : d.file.getD 0 < sources.length := (List.getElem?_eq_some_iff.1 hsource).1
    dsimp only
    split
    · next hfits => simp [full_ne_toLine, hlt, hfits]
    · next hfits => simpa using Or.inr (Nat.lt_of_not_le hfits)

/-- Only the source text that a diagnostic belongs to counts. -/
theorem entry_append {sources : List (List Char)} (more : List (List Char))
    (h : d.file.getD 0 < sources.length) : entry (sources ++ more) d = entry sources d := by
  rw [entry, entry, List.getElem?_append_left h]

/-! ### Reports -/

/-- Reports are put together in a canonical order. The text is that of the diagnostics each on its
own, in the only order that goes by source text, none first, and then by what is covered, and that
keeps the order of diagnostics at one position; so each is shown once, and permutations of a list
that keep the order at every position give one report. A diagnostic is given on one line exactly if
its source text, the first if it has none, is not there or is too short, and source texts that come
later change no diagnostic that has its own. -/
theorem render_canonical (sources : List (List Char)) :
    (∀ errors, ∃ sorted, sorted.Perm errors ∧ (Ascending sorted ∧ SameTies sorted errors) ∧
      (∀ other, Ascending other → SameTies other errors → other = sorted) ∧
        render sources errors = String.join (sorted.map fun d => render sources [d])) ∧
      (∀ errors errors', SameTies errors errors' →
        render sources errors = render sources errors') ∧
      (∀ d, render sources [d] = d.toLine ++ "\n" ↔
        sources.length ≤ d.file.getD 0 ∨
          ∃ source, sources[d.file.getD 0]? = some source ∧ Text.size source < d.span.stop) ∧
      ∀ more d, d.file.getD 0 < sources.length →
        render (sources ++ more) [d] = render sources [d] := by
  refine ⟨fun errors => ?_, fun errors errors' hties => ?_, fun d => ?_, fun more d hd => ?_⟩
  · refine ⟨errors.mergeSort precedes, List.mergeSort_perm errors precedes,
      ⟨ascending_mergeSort errors, sameTies_mergeSort errors⟩, fun other hother hties => ?_,
      render_eq_join sources errors⟩
    exact eq_of_ascending hother (ascending_mergeSort errors)
      (hties.trans (sameTies_mergeSort errors).symm)
  · have hsorted : errors.mergeSort precedes = errors'.mergeSort precedes :=
      eq_of_ascending (ascending_mergeSort errors) (ascending_mergeSort errors')
        (((sameTies_mergeSort errors).trans hties).trans (sameTies_mergeSort errors').symm)
    rw [render, render, hsorted]
  · rw [render_singleton, entry_eq_toLine_iff]
  · rw [render_singleton, render_singleton, entry_append more hd]

/-- Four diagnostics in two orders: one without a source unit, two at the same place, and one that
goes past the end of its text. -/
theorem render_canonical_permuted :
    let diagnostic (file : Option ℕ) (start stop : ℕ) (name : String) : Diagnostic :=
      { cause := .scope (.notDefined name), line := 1, place := .lexeme name, span := ⟨start, stop⟩,
        file := file }
    let a := diagnostic none 0 1 "a"
    let b := diagnostic (some 0) 0 1 "b"
    let c := diagnostic (some 0) 0 1 "c"
    let d := diagnostic (some 1) 0 9 "d"
    let sources := [['b', '\n'], ['d', '\n']]
    SameTies [d, b, c, a] [b, a, d, c] ∧ render sources [d, b, c, a] = render sources [b, a, d, c] ∧
      render sources [d] = d.toLine ++ "\n" ∧
      render (sources ++ [[]]) [a] = render sources [a] := by
  intro diagnostic a b c d sources
  have hties : SameTies [d, b, c, a] [b, a, d, c] := by
    have hac : position a ≠ position c := by decide
    have hbc : position b = position c := by decide
    have hda : position d ≠ position a := by decide
    have hdc : position d ≠ position c := by decide
    intro k
    simp only [List.filter_cons, List.filter_nil, decide_eq_true_eq, hbc]
    by_cases hd : position d = k
    · simp [← hd, hda.symm, hdc.symm]
    · by_cases hc : position c = k
      · simp [hd, hc, hc ▸ hac]
      · simp [hd, hc]
  obtain ⟨-, hsame, hline, hmore⟩ := render_canonical sources
  refine ⟨hties, hsame _ _ hties, (hline d).2 (.inr ⟨['d', '\n'], rfl, by decide⟩), ?_⟩
  exact hmore [[]] a (by decide)

end Report

end Offside
