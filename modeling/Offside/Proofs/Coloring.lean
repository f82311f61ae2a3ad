import Offside.Proofs.Highlighting

/-!
# Comments of an entry in colours

Gaps and comments are no tokens, so an entry is coloured by what stands between its tokens, split at
the first two slashes. That finds the comments and nothing else: what stands between two tokens is
one gap at most, and then one comment at most, since a gap takes all blanks there are, and a comment
all there is up to a line feed, which stands alone. So the parts that show something are the pieces
of the entry, one by one, and the comments among them are the parts in the colour of comments.

* `Piece.comment_of_split`: what a comment of a text is and where it ends;
* `Entry.styled`: a piece in its colour;
* `Entry.shown_highlight`: the parts of an entry that show something are its pieces;
* `Entry.Part`, `Entry.At`: parts and pieces with the text before and after them;
* `Entry.highlight_comments`: the parts of an entry in colours, comments and others.
-/

namespace Offside

/-! ### Pieces in their places -/

namespace Piece

/-- A piece of a text has the shape of what starts there, and the pieces after it are the rest. -/
theorem shape_of_split {cs : List Char} {ps qs : List Piece} {p : Piece}
    (h : cut cs = ps ++ p :: qs) :
    ∃ c rest length, Shape c rest p.cls length ∧ p.chars = c :: rest.take length ∧
      qs.flatMap chars = rest.drop length := by
  induction cs using cut_induction generalizing ps with
  | nil => simp at h
  | cons c rest ih =>
    rw [cut_cons] at h
    cases ps with
    | nil =>
      obtain ⟨rfl, rfl⟩ := List.cons.inj h
      exact ⟨c, rest, _, shape_classify c rest, rfl, flatMap_chars_cut _⟩
    | cons q ps => exact ih (List.cons.inj h).2

theorem head_dropWhile {p : Char → Bool} {cs : List Char} {c : Char}
    (h : (cs.dropWhile p).head? = some c) : p c = false := by
  simpa [h] using List.head?_dropWhile_not p cs

/-- A gap consists of blanks. -/
theorem gap_of_split {cs : List Char} {ps qs : List Piece} {p : Piece} (h : cut cs = ps ++ p :: qs)
    (hp : p.cls = .gap) : ∀ c ∈ p.chars, isGap c = true := by
  obtain ⟨c, rest, length, hshape, hchars, -⟩ := shape_of_split h
  rw [hp] at hshape
  rw [hchars]
  cases hshape with
  | gap hc => exact List.forall_mem_cons.2 ⟨hc, fun d hd => of_mem_take_run hd⟩
  | plain hplain => cases hplain

/-- The rest of a line after a slash, if a further slash follows, starts with two. -/
theorem slashes_start (tail : List Char) :
    ['/', '/'] <+: '/' :: ('/' :: tail).take (run (· ≠ '\n') ('/' :: tail)) := by
  rw [take_run]
  exact ⟨tail.takeWhile (· ≠ '\n'), by simp⟩

/-- After the rest of a line there is a line feed, if there is anything. -/
theorem feed_of_drop_run {rest : List Char} {c : Char}
    (h : (rest.drop (run (· ≠ '\n') rest)).head? = some c) : c = '\n' := by
  rw [drop_run] at h
  simpa using head_dropWhile h

/-- A comment starts with two slashes, stays on its line and takes all the rest of it. -/
theorem comment_of_split {cs : List Char} {ps qs : List Piece} {p : Piece}
    (h : cut cs = ps ++ p :: qs) (hp : p.cls = .comment) :
    ['/', '/'] <+: p.chars ∧ '\n' ∉ p.chars ∧
      (qs.flatMap chars = [] ∨ ∃ rest, qs.flatMap chars = '\n' :: rest) := by
  obtain ⟨c, rest, length, hshape, hchars, hrest⟩ := shape_of_split h
  rw [hp] at hshape
  rw [hchars, hrest]
  cases hshape with
  | comment hc hhead =>
    obtain ⟨tail, rfl⟩ := List.head?_eq_some_iff.1 hhead
    subst hc
    refine ⟨slashes_start tail, fun hmem => ?_, ?_⟩
    · rcases List.mem_cons.1 hmem with hslash | hmem
      · cases hslash
      · rw [take_run] at hmem
        simpa using List.mem_takeWhile_imp hmem
    · cases hend : ('/' :: tail).drop (run (· ≠ '\n') ('/' :: tail)) with
      | nil => exact .inl rfl
      | cons c after =>
        obtain rfl : c = '\n' := feed_of_drop_run (congrArg List.head? hend)
        exact .inr ⟨after, rfl⟩
  | plain hplain => cases hplain

end Piece

namespace Entry

open Piece (isGap cut)

/-! ### Parts that show something -/

/-- A piece in its colour. -/
def styled (p : Piece) : Styled :=
  ⟨if p.cls = .comment then .darkGray else (colorOfPiece p.cls).getD plain, p.chars⟩

theorem colorOf_ne_darkGray (kind : Kind) : colorOf kind ≠ .darkGray := by
  cases kind <;> decide

theorem colorOfPiece_ne_darkGray (cls : PieceClass) : colorOfPiece cls ≠ some .darkGray := by
  cases cls with
  | token kind => simp [colorOfPiece, colorOf_ne_darkGray]
  | _ => simp [colorOfPiece, plain]

theorem color_styled {p : Piece} : (styled p).color = .darkGray ↔ p.cls = .comment := by
  obtain ⟨cls, chars⟩ := p
  cases cls with
  | token kind => simp [styled, colorOfPiece, colorOf_ne_darkGray]
  | _ => simp [styled, colorOfPiece, plain]

/-- The parts that show something. -/
def shown (ss : List Styled) : List Styled := ss.filter fun s => !s.chars.isEmpty

theorem shown_append (as bs : List Styled) : shown (as ++ bs) = shown as ++ shown bs :=
  List.filter_append as bs

theorem shown_cons_of_ne_nil {s : Styled} (h : s.chars ≠ []) (ss : List Styled) :
    shown (s :: ss) = s :: shown ss :=
  List.filter_cons_of_pos (by simpa using h)

theorem flatMap_chars_shown (ss : List Styled) :
    (shown ss).flatMap Styled.chars = ss.flatMap Styled.chars := by
  induction ss with
  | nil => rfl
  | cons s ss ih =>
    by_cases hs : s.chars = []
    · rw [shown, List.filter_cons_of_neg (by simp [hs]), ← shown, ih, List.flatMap_cons, hs,
        List.nil_append]
    · rw [shown_cons_of_ne_nil hs, List.flatMap_cons, List.flatMap_cons, ih]

theorem flatMap_chars_styled (ps : List Piece) :
    (ps.map styled).flatMap Styled.chars = ps.flatMap Piece.chars := by
  rw [List.flatMap_map]
  rfl

/-! ### What stands between tokens -/

theorem ne_slash_of_isGap {c : Char} (h : isGap c = true) : c ≠ '/' := by
  rintro rfl
  cases h

/-- Blanks are split off from what follows them, which is nothing or starts with two slashes. -/
theorem splitAtSlashes_gap {gap rest : List Char} (hgap : ∀ c ∈ gap, isGap c = true)
    (hrest : rest = [] ∨ ['/', '/'] <+: rest) : splitAtSlashes (gap ++ rest) = (gap, rest) := by
  induction gap with
  | nil =>
    rcases hrest with rfl | ⟨tail, rfl⟩
    · rfl
    · rfl
  | cons c gap ih =>
    obtain ⟨hc, hgap⟩ := List.forall_mem_cons.1 hgap
    rw [List.cons_append, splitAtSlashes, ih hgap]
    simp [ne_slash_of_isGap hc]

theorem shown_paintBetween_gap {gap : List Char} (hgap : ∀ c ∈ gap, isGap c = true) :
    shown (paintBetween gap) = if gap.isEmpty then [] else [⟨plain, gap⟩] := by
  have hsplit := splitAtSlashes_gap hgap (.inl rfl)
  rw [List.append_nil] at hsplit
  unfold paintBetween
  rw [hsplit]
  split
  · rfl
  · next hne => exact shown_cons_of_ne_nil (fun h => hne (List.isEmpty_iff.2 h)) []

/-- A comment after a gap is shown as a part of its own. -/
theorem shown_paintBetween_comment {gap comment : List Char} (hgap : ∀ c ∈ gap, isGap c = true)
    (hcomment : ['/', '/'] <+: comment) :
    shown (paintBetween (gap ++ comment)) = shown (paintBetween gap) ++ [⟨.darkGray, comment⟩] := by
  have hsplit := splitAtSlashes_gap hgap (.inr hcomment)
  obtain ⟨tail, rfl⟩ := hcomment
  rw [shown_paintBetween_gap hgap]
  unfold paintBetween
  rw [hsplit, if_neg (by simp)]
  cases gap <;> rfl

/-- A part in the colour of comments shows something. -/
def Showing (s : Styled) : Prop := s.color = .darkGray → s.chars ≠ []

theorem showing_paintBetween (cs : List Char) : ∀ s ∈ paintBetween cs, Showing s := by
  unfold paintBetween
  split
  · exact List.forall_mem_nil _
  · split
    · exact List.forall_mem_singleton.2 nofun
    · next before comment hne hsplit =>
      exact List.forall_mem_cons.2 ⟨nofun, List.forall_mem_singleton.2 fun _ => hne⟩

theorem showing_paint (between : List Char) (ps : List Piece) :
    ∀ s ∈ paint between ps, Showing s := by
  induction ps generalizing between with
  | nil => exact showing_paintBetween between
  | cons p ps ih =>
    unfold paint
    split
    · exact ih _
    · next color hcolor =>
      have hpart : color ≠ .darkGray := fun h => colorOfPiece_ne_darkGray p.cls (h ▸ hcolor)
      exact List.forall_mem_append.2 ⟨showing_paintBetween between,
        List.forall_mem_cons.2 ⟨fun h => absurd h hpart, ih []⟩⟩

/-- Before the end and before a line feed, what has been read since the last token is complete. -/
theorem paint_complete (between : List Char) {cs : List Char}
    (h : ∀ c, cs.head? = some c → c = '\n') :
    paint between (cut cs) = paintBetween between ++ paint [] (cut cs) := by
  cases cs with
  | nil => exact (List.append_nil _).symm
  | cons c cs =>
    obtain rfl : c = '\n' := h c rfl
    rw [Piece.cut_cons, Piece.classify_feed]
    rfl

/-- A piece that scanning keeps ends what stands between tokens. -/
theorem shown_paint_kept {p : Piece} (hkept : p.cls.isKept = true) (hchars : p.chars ≠ [])
    (between : List Char) (ps : List Piece) :
    shown (paint between (p :: ps)) =
      shown (paintBetween between) ++ styled p :: shown (paint [] ps) := by
  obtain ⟨cls, chars⟩ := p
  cases cls with
  | gap => cases hkept
  | comment => cases hkept
  | _ =>
    simp only [paint, colorOfPiece, shown_append]
    rw [shown_cons_of_ne_nil hchars]
    rfl

/-- The parts of an entry that show something, after a gap. The induction goes along the pieces: two
gaps do not follow each other, and after a comment what stands between tokens is complete. -/
theorem shown_paint {gap cs : List Char} (hgap : ∀ c ∈ gap, isGap c = true)
    (hmaximal : gap = [] ∨ ∀ c, cs.head? = some c → isGap c = false) :
    shown (paint gap (cut cs)) = shown (paintBetween gap) ++ (cut cs).map styled := by
  induction cs using Piece.cut_induction generalizing gap with
  | nil => exact (List.append_nil _).symm
  | cons c rest ih =>
    have hafter := @ih [] (by simp) (.inl rfl)
    have hkept : (Piece.classify c rest).1.isKept = true →
        shown (paint gap (cut (c :: rest))) =
          shown (paintBetween gap) ++ (cut (c :: rest)).map styled := by
      intro hkept
      rw [Piece.cut_cons, shown_paint_kept hkept (List.cons_ne_nil _ _), hafter]
      rfl
    rw [Piece.cut_cons] at hkept ⊢
    have hshape := Piece.shape_classify c rest
    generalize Piece.classify c rest = piece at hshape hkept hafter ih ⊢
    obtain ⟨cls, length⟩ := piece
    dsimp only at hshape hkept hafter ih ⊢
    cases hshape with
    | gap hc =>
      obtain rfl : gap = [] := hmaximal.resolve_right fun h => by simp [h c rfl] at hc
      have hblanks : ∀ d ∈ c :: rest.take (Piece.run isGap rest), isGap d = true :=
        List.forall_mem_cons.2 ⟨hc, fun d hd => Piece.of_mem_take_run hd⟩
      have hnext := ih hblanks (.inr fun d hd => Piece.head_dropWhile (Piece.drop_run .. ▸ hd))
      rw [shown_paintBetween_gap hblanks] at hnext
      exact hnext
    | comment hc hrest =>
      obtain ⟨tail, rfl⟩ := List.head?_eq_some_iff.1 hrest
      subst hc
      show shown (paint (gap ++ _) _) = _
      rw [paint_complete _ fun d hd => Piece.feed_of_drop_run hd, shown_append,
        shown_paintBetween_comment hgap (Piece.slashes_start tail), hafter, List.append_assoc]
      rfl
    | text => exact hkept rfl
    | openText => exact hkept rfl
    | plain hplain =>
      refine hkept ?_
      cases cls with
      | token kind => rfl
      | stray => rfl
      | _ => cases hplain

/-- The parts of an entry that show something are its pieces. -/
theorem shown_highlight (cs : List Char) : shown (highlight cs) = (cut cs).map styled :=
  shown_paint (by simp) (.inl rfl)

/-! ### Parts and pieces in their places -/

/-- A part `s` of an entry in colours, between the texts `before` and `after`. -/
def Part (cs before : List Char) (s : Styled) (after : List Char) : Prop :=
  ∃ as bs, highlight cs = as ++ s :: bs ∧ as.flatMap Styled.chars = before ∧
    bs.flatMap Styled.chars = after

/-- A piece `p` of an entry, between the texts `before` and `after`. -/
def At (cs before : List Char) (p : Piece) (after : List Char) : Prop :=
  ∃ ps qs, cut cs = ps ++ p :: qs ∧ ps.flatMap Piece.chars = before ∧
    qs.flatMap Piece.chars = after

section Places

variable {cs before after : List Char}

/-- A part that shows something is a piece in its colour. -/
theorem Part.exists_at {s : Styled} (h : Part cs before s after) (hs : s.chars ≠ []) :
    ∃ p, At cs before p after ∧ styled p = s := by
  obtain ⟨as, bs, hsplit, rfl, rfl⟩ := h
  have hpieces := shown_highlight cs
  rw [hsplit, shown_append, shown_cons_of_ne_nil hs] at hpieces
  obtain ⟨ps, rest, hcut, has, hrest⟩ := List.map_eq_append_iff.1 hpieces.symm
  obtain ⟨p, qs, rfl, hp, hbs⟩ := List.map_eq_cons_iff.1 hrest
  refine ⟨p, ⟨ps, qs, hcut, ?_, ?_⟩, hp⟩
  · rw [← flatMap_chars_styled, has, flatMap_chars_shown]
  · rw [← flatMap_chars_styled, hbs, flatMap_chars_shown]

/-- Each piece is a part in its colour. -/
theorem At.part {p : Piece} (h : At cs before p after) : Part cs before (styled p) after := by
  obtain ⟨ps, qs, hcut, rfl, rfl⟩ := h
  have hpieces := shown_highlight cs
  rw [hcut, List.map_append, List.map_cons] at hpieces
  obtain ⟨as, rest, hsplit, has, hrest⟩ := List.filter_eq_append_iff.1 hpieces
  obtain ⟨hidden, bs, rfl, hhidden, -, hbs⟩ := List.filter_eq_cons_iff.1 hrest
  have hnone : hidden.flatMap Styled.chars = [] :=
    List.flatMap_eq_nil_iff.2 fun s hs => by simpa using hhidden s hs
  refine ⟨as ++ hidden, bs, by simpa using hsplit, ?_, ?_⟩
  · rw [List.flatMap_append, hnone, List.append_nil, ← flatMap_chars_styled, ← has]
    exact (flatMap_chars_shown as).symm
  · rw [← flatMap_chars_styled, ← hbs]
    exact (flatMap_chars_shown bs).symm

/-- A part in the colour of comments is a comment. -/
theorem Part.comment {s : Styled} (h : Part cs before s after) (hs : s.color = .darkGray) :
    ∃ p, At cs before p after ∧ p.cls = .comment ∧ p.chars = s.chars := by
  have hmem : s ∈ highlight cs := by
    obtain ⟨as, bs, hsplit, -⟩ := h
    simp [hsplit]
  obtain ⟨p, hp, rfl⟩ := h.exists_at (showing_paint _ _ s hmem hs)
  exact ⟨p, hp, color_styled.1 hs, rfl⟩

/-- Two elements of a list are one, or one stands before the other. -/
theorem split_cases {α : Type} {as bs as' bs' : List α} {a a' : α}
    (h : as ++ a :: bs = as' ++ a' :: bs') :
    as = as' ∧ a = a' ∨ as ++ [a] <+: as' ∨ as' ++ [a'] <+: as := by
  rcases List.append_eq_append_iff.1 h with ⟨l, rfl, hl⟩ | ⟨l, rfl, hl⟩
  · cases l with
    | nil => exact .inl ⟨(List.append_nil as).symm, (List.cons.inj hl).1⟩
    | cons b l =>
      obtain ⟨rfl, -⟩ := List.cons.inj hl
      exact .inr (.inl ⟨l, by simp⟩)
  · cases l with
    | nil => exact .inl ⟨List.append_nil as', (List.cons.inj hl).1.symm⟩
    | cons b l =>
      obtain ⟨rfl, -⟩ := List.cons.inj hl
      exact .inr (.inr ⟨l, by simp⟩)

/-- Pieces do not overlap. -/
theorem At.disjoint {before' after' : List Char} {p q : Piece} (hp : At cs before p after)
    (hq : At cs before' q after') (hne : p ≠ q) :
    before.length + p.chars.length ≤ before'.length ∨
      before'.length + q.chars.length ≤ before.length := by
  have hlength : ∀ {ps qs : List Piece} {r : Piece}, ps ++ [r] <+: qs →
      (ps.flatMap Piece.chars).length + r.chars.length ≤ (qs.flatMap Piece.chars).length := by
    rintro ps _ r ⟨rest, rfl⟩
    simp only [List.flatMap_append, List.flatMap_cons, List.flatMap_nil, List.length_append]
    omega
  obtain ⟨ps, _, hcut, rfl, rfl⟩ := hp
  obtain ⟨qs, _, hcut', rfl, rfl⟩ := hq
  rcases split_cases (hcut.symm.trans hcut') with ⟨-, heq⟩ | hbefore | hafter
  · exact absurd heq hne
  · exact .inl (hlength hbefore)
  · exact .inr (hlength hafter)

end Places

/-- The parts of an entry in colours are the entry, cut up. A part in the colour of comments starts
with two slashes, has no line feed and goes up to the next one, or to the end. Any other part
consists of blanks, or it is what the pass over the entry takes at its place for one token, be it a
literal left open or a stray character. Each piece of that pass is a part, and one in the colour of
comments only if it is a comment. So no part in that colour reaches into a text literal, closed or
left open. -/
theorem highlight_comments (cs : List Char) :
    (highlight cs).flatMap Styled.chars = cs ∧
      (∀ before s after, Part cs before s after → s.color = .darkGray →
        ['/', '/'] <+: s.chars ∧ '\n' ∉ s.chars ∧ (after = [] ∨ ∃ rest, after = '\n' :: rest)) ∧
      (∀ before s after, Part cs before s after → s.color ≠ .darkGray →
        (∀ c ∈ s.chars, isGap c = true) ∨
          ∃ p, At cs before p after ∧ p.cls.isKept = true ∧ p.chars = s.chars) ∧
      (∀ before p after, At cs before p after →
        ∃ s, Part cs before s after ∧ s.chars = p.chars ∧
          (s.color = .darkGray ↔ p.cls = .comment)) ∧
      ∀ before p after, At cs before p after → p.cls = .token .text ∨ p.cls = .openText →
        ∀ before' s after', Part cs before' s after' → s.color = .darkGray →
          before.length + p.chars.length ≤ before'.length ∨
            before'.length + s.chars.length ≤ before.length := by
  refine ⟨?_, ?_, ?_, ?_, ?_⟩
  · rw [← flatMap_chars_shown, shown_highlight, flatMap_chars_styled, Piece.flatMap_chars_cut]
  · intro before s after hpart hs
    obtain ⟨p, ⟨ps, qs, hcut, -, rfl⟩, hp, hchars⟩ := hpart.comment hs
    rw [← hchars]
    exact Piece.comment_of_split hcut hp
  · intro before s after hpart hs
    by_cases hempty : s.chars = []
    · exact .inl (by simp [hempty])
    · obtain ⟨p, hp, rfl⟩ := hpart.exists_at hempty
      cases hcls : p.cls with
      | gap =>
        obtain ⟨ps, qs, hcut, -⟩ := hp
        exact .inl (Piece.gap_of_split hcut hcls)
      | comment => exact absurd (color_styled.2 hcls) hs
      | _ => exact .inr ⟨p, hp, by rw [hcls]; rfl, rfl⟩
  · intro before p after hp
    exact ⟨styled p, hp.part, rfl, color_styled⟩
  · intro before p after hp htext before' s after' hpart hs
    obtain ⟨q, hq, hcomment, hchars⟩ := hpart.comment hs
    have hne : p ≠ q := by
      rintro rfl
      rcases htext with h | h <;> simp [h] at hcomment
    rw [← hchars]
    exact hp.disjoint hq hne

end Entry

end Offside
