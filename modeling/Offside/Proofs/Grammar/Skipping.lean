import Offside.Proofs.Grammar.Derivation
import Offside.Proofs.Grammar.Locality

/-!
# What recovery skips

Where recovery ends, for the two things that are given up between statements: a malformed line, with
the indented region after it if there is one, and an indented region that belongs to no statement.
Each is given up as a whole, and with one diagnostic.

* `Region`, `Malformed`: what is given up;
* `synchronize_line`: recovery from anywhere on a line goes on to the end of the line;
* `Malformed.stopsAlike`: a malformed line is noticed on the line, whatever comes after it;
* `Skips`: tokens that are given up as a whole, with one diagnostic.
-/

namespace Offside.Grammar

open Offside.Parser

variable {last : Token} {d : Diagnostic}

/-! ### Indented regions -/

/-- An indented region: an indent, and everything up to the dedent that closes it. -/
structure Region (i : Token) (region : List Token) : Prop where
  opening : i.kind = .indent
  closing : ∃ content d, region = i :: (content ++ [d]) ∧ Balanced content ∧ d.kind = .dedent
  inside : ∀ t ∈ region, t.kind ≠ .endOfFile

/-- Tokens that never close the outermost region are skipped, and change the depth by what they
open and close. -/
theorem skipBlock_append {depth : Nat} {ts : List Token} (rest : List Token)
    (h : ∀ us, us <+: ts → dedents us ≤ indents us + depth) :
    skipBlock (depth + 1) (ts ++ rest) =
      skipBlock (depth + indents ts - dedents ts + 1) rest := by
  induction ts generalizing depth with
  | nil => rfl
  | cons t ts ih =>
    have hfirst := h [t] (by simp)
    have hmore := fun us hus => h (t :: us) ((List.prefix_cons_inj t).2 hus)
    simp only [indents_cons, dedents_cons] at hfirst hmore ⊢
    rw [List.cons_append, skipBlock]
    split
    case h_1 hk =>
      simp only [hk, reduceCtorEq, if_true, if_false] at hmore ⊢
      rw [ih fun us hus => by have := hmore us hus; omega]
      congr 1
      omega
    case h_2 hk =>
      simp only [hk, reduceCtorEq, if_true, if_false, indents_nil, dedents_nil] at hfirst hmore ⊢
      obtain ⟨depth, rfl⟩ : ∃ k, depth = k + 1 := ⟨depth - 1, by omega⟩
      rw [if_neg (by omega), Nat.add_sub_cancel,
        ih fun us hus => by have := hmore us hus; omega]
      congr 1
      omega
    case h_3 hi hd =>
      have hi' : ¬ t.kind = .indent := fun hk => hi hk
      have hd' : ¬ t.kind = .dedent := fun hk => hd hk
      simp only [hi', hd', if_false, Nat.add_zero] at hmore ⊢
      exact ih hmore

theorem Region.skipBlock {i : Token} {region : List Token} (h : Region i region)
    (after : List Token) : skipBlock 0 (region ++ after) = after := by
  obtain ⟨content, d, rfl, ⟨hopen, heven⟩, hd⟩ := h.closing
  have hcontent : Grammar.skipBlock (0 + 1) (content ++ d :: after) = _ :=
    skipBlock_append (d :: after) fun us hus => hopen us ((List.mem_inits us content).2 hus)
  rw [List.cons_append, Grammar.skipBlock, h.opening, List.append_assoc]
  refine hcontent.trans ?_
  rw [heven, Grammar.skipBlock, hd]
  simp

/-- What recovery skips once a line has ended: nothing, or the region that follows the line. -/
theorem skipOrphan_region {region after : List Token} (h : region = [] ∨ ∃ i, Region i region)
    (hafter : (after.headD last).kind ≠ .indent) : skipOrphan (region ++ after) = after := by
  rcases h with rfl | ⟨i, hregion⟩
  · cases after with
    | nil => rfl
    | cons t ts => exact if_neg hafter
  · have hskip := hregion.skipBlock after
    obtain ⟨content, d, rfl, -, -⟩ := hregion.closing
    exact (if_pos hregion.opening).trans hskip

/-! ### Malformed lines -/

/-- A line that no statement can be read from: reading one stops on the line. Only its first token
may be a word that starts a statement, and it does not go on with a conditional before it. -/
structure Malformed (line : List Token) : Prop where
  parts : ∃ first text n, line = first :: (text ++ [n]) ∧
    (first.kind.isStructural = false ∧ first.kind ≠ .otherwiseWord) ∧
    (∀ t ∈ text, t.kind.isStructural = false ∧ t.kind.startsStatement = false) ∧
    n.kind = .newline
  short : ShortLists line
  stops : ∃ e notes rest,
    statement (line.length + 1) (endToken line) line = ⟨.error e, notes, rest⟩ ∧ rest ≠ []

theorem Malformed.isLine {line : List Token} (h : Malformed line) : IsLine line := by
  obtain ⟨first, text, n, rfl, ⟨hfirst, -⟩, htext, hn⟩ := h.parts
  refine ⟨first :: text, n, rfl, hn, fun t ht => ?_⟩
  rcases List.mem_cons.1 ht with rfl | ht
  · exact hfirst
  · exact (htext t ht).1

theorem IsLine.kind_ne_end {line : List Token} (h : IsLine line) :
    ∀ t ∈ line, t.kind ≠ .endOfFile := by
  obtain ⟨ts, n, rfl, hn, hts⟩ := h.ending
  intro t ht hk
  rcases List.mem_append.1 ht with ht | ht
  · have hstructural := hts t ht
    simp [hk, Kind.isStructural] at hstructural
  · rw [List.mem_singleton.1 ht, hn] at hk
    cases hk

/-- The words of a line are skipped up to its end. -/
theorem skipStatement_text {text : List Token} {n : Token} (after : List Token)
    (htext : ∀ t ∈ text, t.kind.isStructural = false ∧ t.kind.startsStatement = false)
    (hn : n.kind = .newline) : skipStatement (text ++ n :: after) = skipOrphan after := by
  induction text with
  | nil => rw [List.nil_append, skipStatement, hn]
  | cons t text ih =>
    obtain ⟨⟨hstructural, hstarts⟩, htext⟩ := List.forall_mem_cons.1 htext
    rw [List.cons_append, skipStatement]
    split
    case h_1 hk | h_2 hk | h_3 hk => simp [hk, Kind.isStructural] at hstructural
    case h_4 => rw [if_neg (by simp [hstarts]), ih htext]

/-- From anywhere on a malformed line, recovery skips to the end of the line. -/
theorem synchronize_line {line rest : List Token} (h : Malformed line) (hsuffix : rest <:+ line)
    (hrest : rest ≠ []) (after : List Token) : synchronize (rest ++ after) = skipOrphan after := by
  obtain ⟨first, text, n, rfl, ⟨hfirst, -⟩, htext, hn⟩ := h.parts
  rw [← List.cons_append, List.suffix_concat_iff] at hsuffix
  obtain ⟨us, rfl, hus⟩ := hsuffix.resolve_left hrest
  rw [List.append_assoc, List.singleton_append]
  cases us with
  | nil => rw [List.nil_append, synchronize, hn]
  | cons t us =>
    -- the token at hand is dropped, even if it starts a statement
    have hplain : t.kind.isStructural = false ∧ ∀ u ∈ us,
        u.kind.isStructural = false ∧ u.kind.startsStatement = false := by
      rcases List.suffix_cons_iff.1 hus with heq | hus
      · obtain ⟨rfl, rfl⟩ := List.cons.inj heq
        exact ⟨hfirst, htext⟩
      · exact ⟨(htext t (hus.subset List.mem_cons_self)).1,
          fun u hu => htext u (hus.subset (List.mem_cons_of_mem t hu))⟩
    rw [List.cons_append, synchronize]
    split
    case h_1 hk | h_2 hk | h_3 hk => simp [hk, Kind.isStructural] at hplain
    case h_4 => exact skipStatement_text after hplain.2 hn

/-- Reading a statement from a malformed line stops at the same place and for the same reason
whatever comes after the line, and the reason is pinned to the line. -/
theorem Malformed.stopsAlike {line : List Token} (h : Malformed line) :
    ∃ d rest, PinnedTo line d ∧ rest <:+ line ∧ rest ≠ [] ∧
      ∀ n last more, (line ++ more).length < n →
        statement n last (line ++ more) = ⟨.error d, [], rest ++ more⟩ := by
  obtain ⟨d, notes, rest, hstops, hrest⟩ := h.stops
  have hne : line ≠ [] := by
    obtain ⟨first, text, n, rfl, -⟩ := h.parts
    exact List.cons_ne_nil _ _
  have halike : ∀ n last more, (line ++ more).length < n →
      rest <:+ line ∧ statement n last (line ++ more) = ⟨.error d, [], rest ++ more⟩ := by
    intro n last more hlen
    rw [List.length_append] at hlen
    obtain ⟨m, rfl⟩ : ∃ m, n = m + 1 := ⟨n - 1, by omega⟩
    have hat : At line (fun depth => commas depth line) line.length [] line :=
      ⟨rfl, fun _ => rfl, Nat.le_refl _⟩
    exact (stopsAlike_statement h.isLine h.short (Nat.le_refl _) (Nat.le_of_lt_succ hlen)
      (endToken_kind line) [] line hne hat d notes rest hstops hrest).2
  refine ⟨d, rest, ?_, (halike (line.length + 1) (endToken line) [] (by simp)).1, hrest,
    fun n last more hlen => (halike n last more hlen).2⟩
  -- an end token on another line than the diagnostic shows that this is not where it is pinned
  let other : Token := { endToken line with line := d.line + 1 }
  have hother := (halike (line.length + 1) other [] (by simp)).2
  have hend : other.kind = .endOfFile := endToken_kind line
  rw [List.append_nil] at hother
  obtain ⟨t, ht, g, hd⟩ := (keeps_statement hend (line.length + 1) []).pinned
    ⟨List.nil_sublist [], List.forall_mem_nil _⟩ hother
  rcases List.mem_cons.1 ht with rfl | ht
  · have hline := congrArg Diagnostic.line hd
    exact absurd hline (Nat.ne_of_lt (Nat.lt_succ_self d.line))
  · exact ⟨t, ht, g, hd⟩

/-! ### What is given up as a whole -/

/-- Tokens that are given up between two statements, with one diagnostic. -/
structure Skips (last : Token) (d : Diagnostic) (tokens : List Token) : Prop where
  /-- They neither end a block nor go on with a conditional. -/
  opens : ∃ t us, tokens = t :: us ∧
    t.kind ≠ .dedent ∧ t.kind ≠ .endOfFile ∧ t.kind ≠ .otherwiseWord
  inside : ∀ t ∈ tokens, t.kind ≠ .endOfFile
  recovers : ∀ n after, (tokens ++ after).length < n → (after.headD last).kind ≠ .indent →
    recovering (statement n) last (tokens ++ after) = ⟨.ok none, [d], after⟩

theorem recovering_of_error {p : Parser Stmt} {ts rest : List Token}
    (h : p last ts = ⟨.error d, [], rest⟩) :
    recovering p last ts = ⟨.ok none, [d], synchronize rest⟩ := by
  rw [recovering, h]
  rfl

/-- A malformed line is given up together with the region after it. -/
theorem Malformed.skips {line region : List Token} (h : Malformed line)
    (hregion : region = [] ∨ ∃ i, Region i region) :
    ∃ t ∈ line, ∃ g, ∀ last, Skips last (t.diagnose (.grammar g)) (line ++ region) := by
  obtain ⟨d, rest, ⟨t, ht, g, rfl⟩, hsuffix, hrest, hstops⟩ := h.stopsAlike
  refine ⟨t, ht, g, fun last => ⟨?_, ?_, fun n after hlen hafter => ?_⟩⟩
  · obtain ⟨first, text, n, rfl, ⟨hfirst, hotherwise⟩, -⟩ := h.parts
    refine ⟨first, _, rfl, ?_, ?_, hotherwise⟩ <;> intro hk <;> simp [hk, Kind.isStructural] at hfirst
  · refine List.forall_mem_append.2 ⟨h.isLine.kind_ne_end, ?_⟩
    rcases hregion with rfl | ⟨i, hregion⟩
    · exact List.forall_mem_nil _
    · exact hregion.inside
  · rw [List.append_assoc] at hlen ⊢
    have hrecovers := recovering_of_error (hstops n last (region ++ after) hlen)
    rwa [synchronize_line h hsuffix hrest, skipOrphan_region hregion hafter] at hrecovers

/-- A region on its own is given up for its indent. -/
theorem Region.skips {i : Token} {region : List Token} (h : Region i region) :
    Skips last (i.diagnose (.grammar .unexpectedIndent)) region := by
  refine ⟨?_, h.inside, fun n after hlen _ => ?_⟩
  · obtain ⟨content, d, rfl, -, -⟩ := h.closing
    refine ⟨i, _, rfl, ?_, ?_, ?_⟩ <;> rw [h.opening] <;> decide
  · have hskip := h.skipBlock after
    obtain ⟨content, d, rfl, -, -⟩ := h.closing
    obtain ⟨m, rfl⟩ : ∃ m, n = m + 1 := ⟨n - 1, by omega⟩
    have hstops : statement (m + 1) last (i :: (content ++ [d]) ++ after) =
        ⟨.error (i.diagnose (.grammar .unexpectedIndent)), [], i :: (content ++ [d]) ++ after⟩ := by
      have hpeek : peek last (i :: (content ++ [d]) ++ after) = ⟨.ok i, [], _⟩ := rfl
      rw [statement, statementOf, bind_of_ok hpeek, h.opening]
      rfl
    have hrecovers := recovering_of_error hstops
    rwa [List.cons_append, synchronize, h.opening, ← List.cons_append, hskip] at hrecovers

end Offside.Grammar
