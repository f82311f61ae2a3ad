import Mathlib.Data.List.Forall2
import Offside.Proofs.Lockstep.Relation

/-!
# Stores in lockstep

How the operations of a store act on variables, and that they keep two stores in correspondence:
rebinding a variable and the one that corresponds to it, binding a new variable on both sides, and
adding a frame on both sides.
-/

namespace Offside

/-! ### Variables of a store -/

theorem Bindings.lookup_update (name n : String) (value : Value) (bs : Bindings) :
    (Bindings.update name value bs).lookup n =
      if n = name ∧ (bs.lookup name).isSome then some value else bs.lookup n := by
  induction bs with
  | nil => simp [Bindings.update]
  | cons b bs ih =>
    obtain ⟨k, v⟩ := b
    rw [Bindings.update]
    by_cases hk : k = name
    · subst hk
      by_cases hn : n = k <;> simp [List.lookup_cons, hn, beq_false_of_ne]
    · have hk' : (name == k) = false := beq_false_of_ne (Ne.symm hk)
      rw [if_neg hk, List.lookup_cons, List.lookup_cons, List.lookup_cons, hk', ih]
      by_cases hn : n = k
      · subst hn
        simp [hk]
      · simp [beq_false_of_ne hn]

/-- What names are looked up to after values have been bound: one of the values, or what they were
looked up to before. -/
theorem Bindings.of_lookup_insertAll {names : List String} {args : List Value} {bs : Bindings}
    {n : String} {v : Value} (h : (bs.insertAll names args).lookup n = some v) :
    v ∈ args ∨ bs.lookup n = some v := by
  induction names generalizing bs args with
  | nil =>
    rw [insertAll.eq_def] at h
    exact .inr h
  | cons name names ih =>
    cases args with
    | nil => exact .inr h
    | cons arg args =>
      rcases ih h with h | h
      · exact .inl (List.mem_cons_of_mem arg h)
      · rw [insert] at h
        split at h
        · rw [lookup_update] at h
          split at h
          · exact .inl (by rw [Option.some.inj h]; exact List.mem_cons_self)
          · exact .inr h
        · rw [List.lookup_cons] at h
          split at h
          · exact .inl (by rw [Option.some.inj h]; exact List.mem_cons_self)
          · exact .inr h

theorem Frame.get?_isSome_iff (f : Frame) (name : String) :
    (f.get? name).isSome ↔ name ∈ f.names := by
  unfold Frame.get? Frame.names
  induction f.bindings with
  | nil => simp
  | cons b bs ih =>
    obtain ⟨k, v⟩ := b
    by_cases h : name = k
    · simp [h]
    · simp [List.lookup_cons, beq_false_of_ne h, h, ih]

namespace Store

theorem value?_isSome_iff (s : Store) (frame : Nat) (name : String) :
    (s.value? (frame, name)).isSome ↔ name ∈ s.names frame := by
  unfold value? names
  cases s.frames[frame]? with
  | none => simp
  | some f => simpa using f.get?_isSome_iff name

theorem binds_eq (s : Store) (frame : Nat) (name : String) :
    s.binds frame name = (s.value? (frame, name)).isSome := by
  unfold binds value?
  cases s.frames[frame]? <;> rfl

theorem getAt?_eq (s : Store) (frame distance : Nat) (name : String) :
    s.getAt? frame distance name =
      (s.ancestor? frame distance).bind fun f => s.value? (f, name) := rfl

theorem lt_size_of_value? {s : Store} {a : Lockstep.Location} (h : (s.value? a).isSome) :
    a.1 < s.frames.size := by
  by_contra hge
  simp [value?, Array.getElem?_eq_none (Nat.le_of_not_lt hge)] at h

theorem value?_update (s : Store) (frame : Nat) (name : String) (value : Value)
    (a : Lockstep.Location) :
    (s.update frame name value).value? a =
      if a = (frame, name) ∧ (s.value? (frame, name)).isSome then some value else s.value? a := by
  obtain ⟨f, n⟩ := a
  simp only [update, value?, Array.getElem?_modify, Prod.mk.injEq]
  by_cases hf : frame = f
  · subst hf
    cases s.frames[frame]? with
    | none => simp
    | some fr =>
      rw [if_pos rfl]
      refine (Bindings.lookup_update name n value fr.bindings).trans ?_
      by_cases hc : n = name ∧ (fr.bindings.lookup name).isSome
      · rw [if_pos hc, if_pos ⟨⟨rfl, hc.1⟩, hc.2⟩]
      · rw [if_neg hc, if_neg fun h => hc ⟨h.1.2, h.2⟩]
        rfl
  · simp [hf, Ne.symm hf]

theorem value?_define (s : Store) (frame : Nat) (name : String) (value : Value)
    (hframe : frame < s.frames.size) (a : Lockstep.Location) :
    (s.define frame name value).value? a =
      if a = (frame, name) then some value else s.value? a := by
  obtain ⟨f, n⟩ := a
  simp only [define, value?, Array.getElem?_modify, Prod.mk.injEq]
  by_cases hf : frame = f
  · subst hf
    rw [Array.getElem?_eq_getElem hframe]
    by_cases hn : n = name
    · simp [Frame.define, Frame.get?, hn]
    · simp [Frame.define, Frame.get?, hn, List.lookup_cons, beq_false_of_ne hn]
  · simp [hf, Ne.symm hf]

theorem names_define (s : Store) (frame : Nat) (name : String) (value : Value)
    (hframe : frame < s.frames.size) :
    (s.define frame name value).names frame = name :: s.names frame := by
  simp [define, names, Array.getElem?_modify, Array.getElem?_eq_getElem hframe, Frame.define,
    Frame.names]

theorem value?_alloc (s : Store) (parent : Nat) (bindings : Bindings) (a : Lockstep.Location) :
    (s.alloc parent bindings).2.value? a =
      if a.1 = s.frames.size then bindings.lookup a.2 else s.value? a := by
  simp only [alloc, value?, Array.getElem?_push]
  split
  · rfl
  · rfl

theorem ancestor?_succ (s : Store) (frame distance : Nat) :
    s.ancestor? frame (distance + 1) =
      (s.parent? frame).bind fun parent => s.ancestor? parent distance := by
  rw [ancestor?, parent?]
  cases s.frames[frame]? <;> rfl

/-- The frames out from a frame stay where they are. -/
theorem Keeps.ancestor? {hole : Option Nat} {s s₁ : Store} (h : s.Keeps hole s₁)
    {frame distance target : Nat} (ht : s.ancestor? frame distance = some target) :
    s₁.ancestor? frame distance = some target := by
  induction distance generalizing frame with
  | zero => exact ht
  | succ distance ih =>
    rw [ancestor?_succ] at ht ⊢
    obtain ⟨parent, hparent, hrest⟩ := Option.bind_eq_some_iff.1 ht
    have hlt : frame < s.frames.size := by
      by_contra hge
      simp [parent?, Array.getElem?_eq_none (Nat.le_of_not_lt hge)] at hparent
    rw [h.parent frame hlt, hparent]
    exact ih hrest

theorem parent?_alloc (s : Store) (parent : Nat) (bindings : Bindings) :
    (s.alloc parent bindings).2.parent? s.frames.size = some parent := by
  simp [alloc, parent?]

end Store

namespace Lockstep

variable {P : Pairing} {W W' : World} {s s' s₁ s₁' : Store} {frame frame' : Nat} {V : View}

/-! ### Growth

What corresponds goes on to correspond while frames keep their parents and more variables come to
correspond. -/

theorem Linked.mono {links : List (Address × Address)} {hole hole' : Option Nat}
    (h : Linked W s s' frame frame' links) (hW : W ≤ W') (hs : s.Keeps hole s₁)
    (hs' : s'.Keeps hole' s₁') : Linked W' s₁ s₁' frame frame' links := by
  intro l hl
  obtain ⟨f, f', hf, hf', hw⟩ := h l hl
  exact ⟨f, f', hs.ancestor? hf, hs'.ancestor? hf', hW _ _ hw⟩

theorem ValueAlike.mono {hole hole' : Option Nat} {v v' : Value}
    (h : ValueAlike P W s s' v v') (hW : W ≤ W') (hs : s.Keeps hole s₁)
    (hs' : s'.Keeps hole' s₁') : ValueAlike P W' s₁ s₁' v v' := by
  cases v with
  | function c =>
    cases v' with
    | function c' =>
      obtain ⟨hid, hname, V, V₁, V₂, hlinked, hparams, hbody⟩ := h
      exact ⟨hid, hname, V, V₁, V₂, hlinked.mono hW hs hs', hparams, hbody⟩
    | _ => exact h
  | _ => cases v' <;> exact h

theorem Realizes.mono (h : Realizes P W s s' frame frame' V) (hW : W ≤ W')
    (hs : s.Keeps none s₁) (hs' : s'.Keeps none s₁') : Realizes P W' s₁ s₁' frame frame' V where
  exists_left := Nat.lt_of_lt_of_le h.exists_left hs.size
  exists_right := Nat.lt_of_lt_of_le h.exists_right hs'.size
  frames := h.frames
  left := (hs.names frame h.exists_left (by simp)).trans h.left
  right := (hs'.names frame' h.exists_right (by simp)).trans h.right
  linked := h.linked.mono hW hs hs'

/-! ### Rebinding -/

/-- Rebinding corresponding variables to corresponding values. -/
theorem StoreAlike.update {f f' : Nat} {n n' : String} {v v' : Value}
    (h : StoreAlike P W s s') (hw : W (f, n) (f', n')) (hv : ValueAlike P W s s' v v') :
    StoreAlike P W (s.update f n v) (s'.update f' n' v') := by
  have hs := s.keeps_update f n v
  have hs' := s'.keeps_update f' n' v'
  obtain ⟨u, u', hu, hu', -⟩ := h.values _ _ hw
  refine ⟨by simpa [Store.update] using h.size, h.allowed, h.unique, ?_, ?_⟩
  · intro a b hab
    rw [Store.value?_update, Store.value?_update, hu, hu']
    by_cases ha : a = (f, n)
    · have hb : b = (f', n') := (h.unique a b _ _ hab hw).1 ha
      exact ⟨v, v', by simp [ha], by simp [hb], hv.mono (World.le_refl W) hs hs'⟩
    · have hb : b ≠ (f', n') := fun hb => ha ((h.unique a b _ _ hab hw).2 hb)
      obtain ⟨w, w', hw, hw', hvw⟩ := h.values a b hab
      exact ⟨w, w', by simp [ha, hw], by simp [hb, hw'], hvw.mono (World.le_refl W) hs hs'⟩
  · intro a ha
    rw [Store.value?_update, hu] at ha
    by_cases hfn : a = (f, n)
    · exact ⟨_, hfn ▸ hw⟩
    · exact h.total a (by simpa [hfn] using ha)

/-! ### Binding -/

/-- A world in which two more variables correspond. -/
def World.add (W : World) (a b : Location) : World := fun x y => W x y ∨ x = a ∧ y = b

theorem World.le_add (W : World) (a b : Location) : W ≤ W.add a b := fun _ _ h => .inl h

theorem ValueAlike.widen {v v' : Value} (h : ValueAlike P W s s' v v') (a b : Location) :
    ValueAlike P (W.add a b) s s' v v' :=
  h.mono (World.le_add W a b) (Store.Keeps.refl none s) (Store.Keeps.refl none s')

/-- Binding a new name on both sides makes these variables correspond. The values may already count
on that: a function sees its own name. -/
theorem bind_alike {n n' : String} {v v' : Value} (hstore : StoreAlike P W s s')
    (hreal : Realizes P W s s' frame frame' V) (hn : n ∉ V.left) (hn' : n' ∉ V.right)
    (hnames : P.names n n') (hv : ValueAlike P (W.add (frame, n) (frame', n')) s s' v v') :
    StoreAlike P (W.add (frame, n) (frame', n')) (s.define frame n v) (s'.define frame' n' v') ∧
      Realizes P (W.add (frame, n) (frame', n')) (s.define frame n v) (s'.define frame' n' v')
        frame frame' (V.bind n n') := by
  have hs := s.keeps_define frame n v
  have hs' := s'.keeps_define frame' n' v'
  have hW := World.le_add W (frame, n) (frame', n')
  -- neither variable corresponds to anything yet, since neither is bound
  have hfresh : ∀ b, ¬ W (frame, n) b := by
    intro b hb
    obtain ⟨u, -, hu, -⟩ := hstore.values _ _ hb
    exact hn (hreal.left ▸ (s.value?_isSome_iff frame n).1 (by simp [hu]))
  have hfresh' : ∀ a, ¬ W a (frame', n') := by
    intro a ha
    obtain ⟨-, u', -, hu', -⟩ := hstore.values _ _ ha
    exact hn' (hreal.right ▸ (s'.value?_isSome_iff frame' n').1 (by simp [hu']))
  refine ⟨⟨by simpa [Store.define] using hstore.size, ?_, ?_, ?_, ?_⟩, ?_⟩
  · rintro a b (hab | ⟨rfl, rfl⟩)
    · exact hstore.allowed a b hab
    · exact ⟨hreal.frames, hnames⟩
  · rintro a b a' b' (hab | ⟨rfl, rfl⟩) (hab' | ⟨rfl, rfl⟩)
    · exact hstore.unique a b a' b' hab hab'
    · exact ⟨fun h => absurd (h ▸ hab) (hfresh b), fun h => absurd (h ▸ hab) (hfresh' a)⟩
    · exact ⟨fun h => absurd (h ▸ hab') (hfresh b'), fun h => absurd (h ▸ hab') (hfresh' a')⟩
    · exact ⟨fun _ => rfl, fun _ => rfl⟩
  · intro a b hab
    rw [Store.value?_define s frame n v hreal.exists_left,
      Store.value?_define s' frame' n' v' hreal.exists_right]
    rcases hab with hab | ⟨rfl, rfl⟩
    · have ha : a ≠ (frame, n) := fun h => hfresh b (h ▸ hab)
      have hb : b ≠ (frame', n') := fun h => hfresh' a (h ▸ hab)
      obtain ⟨u, u', hu, hu', huv⟩ := hstore.values a b hab
      exact ⟨u, u', by simp [ha, hu], by simp [hb, hu'], huv.mono hW hs hs'⟩
    · exact ⟨v, v', by simp, by simp, hv.mono (World.le_refl _) hs hs'⟩
  · intro a ha
    rw [Store.value?_define s frame n v hreal.exists_left] at ha
    by_cases hfn : a = (frame, n)
    · exact ⟨_, .inr ⟨hfn, rfl⟩⟩
    · obtain ⟨b, hb⟩ := hstore.total a (by simpa [hfn] using ha)
      exact ⟨b, .inl hb⟩
  · refine ⟨Nat.lt_of_lt_of_le hreal.exists_left hs.size,
      Nat.lt_of_lt_of_le hreal.exists_right hs'.size, hreal.frames, ?_, ?_, ?_⟩
    · rw [Store.names_define s frame n v hreal.exists_left, hreal.left]
      rfl
    · rw [Store.names_define s' frame' n' v' hreal.exists_right, hreal.right]
      rfl
    · intro l hl
      rcases List.mem_cons.1 hl with rfl | hl
      · exact ⟨frame, frame', rfl, rfl, .inr ⟨rfl, rfl⟩⟩
      · exact hreal.linked.mono hW hs hs' l hl

/-! ### Fresh frames -/

/-- A fresh frame without names on both sides. -/
theorem alloc_alike {parent parent' : Nat} (hstore : StoreAlike P W s s')
    (hlinked : Linked W s s' parent parent' V.links) :
    StoreAlike P W (s.alloc parent []).2 (s'.alloc parent' []).2 ∧
      Realizes P W (s.alloc parent []).2 (s'.alloc parent' []).2 s.frames.size s'.frames.size
        V.inner := by
  have hs := s.keeps_alloc parent []
  have hs' := s'.keeps_alloc parent' []
  refine ⟨⟨?_, hstore.allowed, hstore.unique, ?_, ?_⟩, ⟨?_, ?_, ?_, ?_, ?_, ?_⟩⟩
  · simp [Store.alloc, hstore.size, Nat.add_right_comm]
  · intro a b hab
    obtain ⟨u, u', hu, hu', huv⟩ := hstore.values a b hab
    have ha : a.1 ≠ s.frames.size := by
      have := Store.lt_size_of_value? (a := a) (s := s) (by simp [hu])
      omega
    have hb : b.1 ≠ s'.frames.size := by
      have := Store.lt_size_of_value? (a := b) (s := s') (by simp [hu'])
      omega
    refine ⟨u, u', ?_, ?_, huv.mono (World.le_refl W) hs hs'⟩
    · rw [Store.value?_alloc, if_neg ha, hu]
    · rw [Store.value?_alloc, if_neg hb, hu']
  · intro a ha
    rw [Store.value?_alloc] at ha
    split at ha
    · simp at ha
    · exact hstore.total a ha
  · simp [Store.alloc]
  · simp [Store.alloc]
  · rw [hstore.size]
    exact P.frames_fresh _
  · simp [Store.alloc, Store.names, View.inner, Frame.names]
  · simp [Store.alloc, Store.names, View.inner, Frame.names]
  · intro l hl
    obtain ⟨k, hk, rfl⟩ := List.mem_map.1 hl
    obtain ⟨f, f', hf, hf', hw⟩ := hlinked k hk
    refine ⟨f, f', ?_, ?_, hw⟩
    · rw [Store.ancestor?_succ, Store.parent?_alloc]
      exact hs.ancestor? hf
    · rw [Store.ancestor?_succ, Store.parent?_alloc]
      exact hs'.ancestor? hf'

/-- A fresh frame in which one more name is bound. -/
theorem alloc_cons (s : Store) (parent : Nat) (bs : Bindings) (n : String) (v : Value) :
    (s.alloc parent ((n, v) :: bs)).2 = (s.alloc parent bs).2.define s.frames.size n v := by
  simp only [Store.alloc, Store.define, Store.mk.injEq]
  apply Array.ext_getElem?
  intro i
  rw [Array.getElem?_modify]
  by_cases hi : s.frames.size = i
  · simp [← hi, Frame.define]
  · simp [hi, Array.getElem?_push, Ne.symm hi]

theorem insert_of_not_mem {bs : Bindings} {n : String} (v : Value) (h : n ∉ bs.map (·.1)) :
    bs.insert n v = (n, v) :: bs := by
  unfold Bindings.insert
  have hnone : ¬ (bs.lookup n).isSome := fun hsome =>
    h ((Frame.get?_isSome_iff ⟨bs, none⟩ n).1 hsome)
  rw [if_neg hnone]

theorem names_alloc (s : Store) (parent : Nat) (bs : Bindings) :
    (s.alloc parent bs).2.names s.frames.size = bs.map (·.1) := by
  simp [Store.alloc, Store.names, Frame.names]

/-- Parameters bound to corresponding arguments in fresh frames. The frames start with `bs` and `bs'`
bound, and the induction is on the parameters that follow. -/
theorem params_alike {parent parent' : Nat} {V V₁ : View} {ns ns' : List String}
    (hparams : ParamsAlike P V ns ns' V₁) {bs bs' : Bindings} {vs vs' : List Value} {W : World}
    (hstore : StoreAlike P W (s.alloc parent bs).2 (s'.alloc parent' bs').2)
    (hreal : Realizes P W (s.alloc parent bs).2 (s'.alloc parent' bs').2 s.frames.size
      s'.frames.size V)
    (hvalues : List.Forall₂
      (ValueAlike P W (s.alloc parent bs).2 (s'.alloc parent' bs').2) vs vs')
    (hlength : ns.length = vs.length) :
    ∃ W', W ≤ W' ∧
      StoreAlike P W' (s.alloc parent (bs.insertAll ns vs)).2
        (s'.alloc parent' (bs'.insertAll ns' vs')).2 ∧
      Realizes P W' (s.alloc parent (bs.insertAll ns vs)).2
        (s'.alloc parent' (bs'.insertAll ns' vs')).2 s.frames.size s'.frames.size V₁ := by
  induction hparams generalizing bs bs' vs vs' W with
  | nil V =>
    cases hvalues with
    | nil => exact ⟨W, World.le_refl W, hstore, hreal⟩
    | cons _ _ => simp at hlength
  | cons hn hn' hnames _ ih =>
    cases hvalues with
    | nil => simp at hlength
    | @cons v v' vs vs' hv hvs =>
      rename_i V V₁ n n' ns ns' _
      have hbs : n ∉ bs.map (·.1) := by rwa [← names_alloc s parent, hreal.left]
      have hbs' : n' ∉ bs'.map (·.1) := by rwa [← names_alloc s' parent', hreal.right]
      obtain ⟨hstore₁, hreal₁⟩ := bind_alike hstore hreal hn hn' hnames (hv.widen _ _)
      have hs := (s.alloc parent bs).2.keeps_define s.frames.size n v
      have hs' := (s'.alloc parent' bs').2.keeps_define s'.frames.size n' v'
      have hW := World.le_add W (s.frames.size, n) (s'.frames.size, n')
      have hvs₁ := hvs.imp fun _ _ h => h.mono hW hs hs'
      rw [← alloc_cons, ← alloc_cons] at hstore₁ hreal₁ hvs₁
      obtain ⟨W', hW', hstore', hreal'⟩ := ih hstore₁ hreal₁ hvs₁ (by simpa using hlength)
      refine ⟨W', World.le_trans hW hW', ?_⟩
      rw [Bindings.insertAll, Bindings.insertAll, insert_of_not_mem v hbs,
        insert_of_not_mem v' hbs']
      exact ⟨hstore', hreal'⟩

theorem ParamsAlike.length_eq {V V₁ : View} {ns ns' : List String}
    (h : ParamsAlike P V ns ns' V₁) : ns.length = ns'.length := by
  induction h with
  | nil => rfl
  | cons _ _ _ _ ih => simp [ih]

end Lockstep

end Offside
