import Offside.Proofs.Counting
import Offside.Proofs.Fuel
import Offside.Session

/-!
# Counted loops, unrolled

A loop with a count runs its body in a block of its own each time round. So it does what as many
copies of the block would do one after the other: it ends in the same, be that a return or a fault
from one of them, and leaves the same machine behind.

* `Eval.upto_timesLoop_sequence`, `Eval.timesLoop_eq_sequence`: a loop and its rounds in sequence;
* `Eval.ends_repeatTimes`: what a loop ends in, after its count has been evaluated;
* `Eval.repeatTimes_unrolls`: counted loops and the copies of their blocks.
-/

namespace Offside.Eval

open Run

/-! ### Rounds in sequence -/

theorem countUp_of_lt {done count : Nat} (hlt : done < count) (hlimit : count ≤ Number.countLimit) :
    Number.countUp done = done + 1 :=
  if_pos (Nat.lt_of_lt_of_le hlt hlimit)

section Rounds

variable (exec : Stmt → Run Flow) (s : Stmt) {count : Nat} (hlimit : count ≤ Number.countLimit)
include hlimit

/-- A loop, unless its fuel does not last, does what its further rounds do in sequence. -/
theorem upto_timesLoop_sequence (fuel : Nat) {done rounds : Nat} (hrounds : done + rounds = count) :
    (timesLoop (exec s) count fuel done).Upto (sequence exec (List.replicate rounds s)) := by
  induction fuel generalizing done rounds with
  | zero => exact upto_exhausted _
  | succ fuel ih =>
    rw [timesLoop_succ]
    cases rounds with
    | zero =>
      rw [if_neg (by omega)]
      exact .refl _
    | succ rounds =>
      have hlt : done < count := by omega
      rw [if_pos hlt, countUp_of_lt hlt hlimit, List.replicate_succ, sequence_cons]
      exact (Upto.refl _).bind (upto_andThen (ih (by omega)))

/-- With fuel for all its rounds a loop is their sequence. -/
theorem timesLoop_eq_sequence {fuel done rounds : Nat} (hrounds : done + rounds = count)
    (hfuel : rounds < fuel) :
    timesLoop (exec s) count fuel done = sequence exec (List.replicate rounds s) := by
  induction rounds generalizing fuel done with
  | zero =>
    obtain ⟨fuel, rfl⟩ := Nat.exists_eq_add_of_lt hfuel
    rw [timesLoop_succ, if_neg (by omega)]
    rfl
  | succ rounds ih =>
    obtain ⟨fuel, rfl⟩ := Nat.exists_eq_add_of_lt hfuel
    have hlt : done < count := by omega
    rw [timesLoop_succ, if_pos hlt, countUp_of_lt hlt hlimit, ih (by omega) (by omega),
      List.replicate_succ, sequence_cons]

end Rounds

/-! ### Ends of a loop -/

section Loop

variable {frame : Nat} {count : Expr} {m m₁ : Machine} {v : Value}
  (hcount : Ends (fun fuel => expr fuel frame count) m (.done v m₁)) (token : Token)
  (body : List Stmt)
include hcount

/-- What a loop ends in is what its rounds end in, after its count has been evaluated. -/
theorem ends_repeatTimes (r : Result Flow) :
    Ends (fun fuel => stmt fuel frame (.repeatTimes token count body)) m r ↔
      Ends (fun fuel => do timesLoop (block (stmt fuel) frame body) (← repetitions token v) fuel 0)
        m₁ r := by
  rw [ends_succ (show stmt 0 frame (.repeatTimes token count body) m = .exhausted from rfl)]
  refine (grows_expr frame count).ends_bind (fun v fuel fuel' h => ?_) hcount r
  exact (Upto.refl _).bind fun n => upto_timesLoop (upto_block (upto_stmt h) frame body) n h 0

/-- What a loop with a count ends in is what its rounds end in. -/
theorem ends_repeatTimes_of_count {n : Nat} (hn : repetitions token v = pure n) (r : Result Flow) :
    Ends (fun fuel => stmt fuel frame (.repeatTimes token count body)) m r ↔
      Ends (fun fuel => timesLoop (block (stmt fuel) frame body) n fuel 0) m₁ r := by
  rw [ends_repeatTimes hcount, hn]
  rfl

/-- The rounds of a loop end in what as many blocks in sequence end in. -/
theorem ends_copies {n : Nat} (hlimit : n ≤ Number.countLimit) (r : Result Flow) :
    Ends (fun fuel => do
        let _ ← expr fuel frame count
        sequence (stmt fuel frame) (List.replicate n (.block body))) m r ↔
      Ends (fun fuel => timesLoop (block (stmt fuel) frame body) n fuel 0) m₁ r := by
  rw [(grows_expr frame count).ends_bind
    (fun _ _ _ h => upto_sequence (upto_stmt h frame) (List.replicate n (.block body))) hcount]
  refine ends_iff (fun fuel => ⟨max fuel (n + 1), ?_⟩) (fun fuel => ⟨fuel + 1, ?_⟩) m₁ r
  · have hle : fuel ≤ max fuel (n + 1) + 1 := Nat.le_succ_of_le (Nat.le_max_left _ _)
    have hrounds : timesLoop (block (stmt (max fuel (n + 1))) frame body) n (max fuel (n + 1)) 0 =
        sequence (stmt (max fuel (n + 1) + 1) frame) (List.replicate n (.block body)) :=
      timesLoop_eq_sequence (stmt (max fuel (n + 1) + 1) frame) (.block body) hlimit (Nat.zero_add n)
        (Nat.le_max_right _ _)
    rw [hrounds]
    exact upto_sequence (upto_stmt hle frame) _
  · exact upto_timesLoop_sequence (stmt (fuel + 1) frame) (.block body) hlimit fuel (Nat.zero_add n)

end Loop

/-- A value that is no positive integer is no count. -/
theorem repetitions_eq_fail {v : Value}
    (h : ∀ x (n : Nat), v = .number x → 1 ≤ n → x.value? ≠ some (n : ℚ)) (token : Token) :
    repetitions token v = Run.fail token .invalidRepeatCount := by
  cases v with
  | number x =>
    cases hx : x.toCount? with
    | none => simp only [repetitions, hx]
    | some n =>
      obtain ⟨hn, hvalue⟩ := Number.toCount?_eq_some.1 hx
      exact absurd hvalue (h x n rfl hn)
  | _ => rfl

/-- A loop whose count evaluates to a number that is a positive integer `n`, up to `2 ^ 53`, ends in
what evaluating the count and then `n` copies of its body as a block, in the same frame, end in: it
completes in the same way, with the same fault or the same value on its way to the call if there is
one, and leaves the same machine. It goes round as long as a number that starts at zero, and to which
one is added each time, is less than the count. If the count evaluates to anything else than a
positive integer, the loop ends in a fault at its first word, with the machine as the count has left
it. -/
theorem repeatTimes_unrolls {frame : Nat} {count : Expr} {m m₁ : Machine} {v : Value}
    (hcount : Ends (fun fuel => expr fuel frame count) m (.done v m₁)) (token : Token)
    (body : List Stmt) :
    (∀ (x : Number) (n : Nat), v = .number x → x.value? = some (n : ℚ) → 1 ≤ n → n ≤ 2 ^ 53 → ∀ r,
        (Ends (fun fuel => stmt fuel frame (.repeatTimes token count body)) m r ↔
          Ends (fun fuel => do
            let _ ← expr fuel frame count
            sequence (stmt fuel frame) (List.replicate n (.block body))) m r) ∧
        (Ends (fun fuel => stmt fuel frame (.repeatTimes token count body)) m r ↔
          Ends (fun fuel => numberLoop (block (stmt fuel) frame body) x fuel .zero) m₁ r)) ∧
      ((∀ (x : Number) (n : Nat), v = .number x → 1 ≤ n → x.value? ≠ some (n : ℚ)) → ∀ r,
        Ends (fun fuel => stmt fuel frame (.repeatTimes token count body)) m r ↔
          r = .fault ((token.diagnose (.runtime .invalidRepeatCount)).inFile m.context.file) m₁) := by
  refine ⟨fun x n hv hvalue hn hlimit r => ?_, fun hinvalid r => ?_⟩
  · have hx : x.toCount? = some n := Number.toCount?_eq_some.2 ⟨hn, hvalue⟩
    have hrepetitions : repetitions token v = pure n := by
      simp only [hv, repetitions, hx]
    rw [ends_repeatTimes_of_count hcount token body hrepetitions, ends_copies hcount body hlimit]
    simp only [timesLoop_eq_numberLoop _ hx, and_self]
  · have hcontext : m₁.context = m.context := by
      obtain ⟨-, fuel, hdone⟩ := hcount
      have hmoves := moves_expr fuel frame count m
      dsimp only at hdone
      rw [hdone] at hmoves
      exact hmoves.context
    rw [ends_repeatTimes hcount, repetitions_eq_fail hinvalid, ← hcontext]
    constructor
    · rintro ⟨-, fuel, rfl⟩
      rfl
    · rintro rfl
      exact ⟨by simp, 0, rfl⟩

/-- Three rounds, in a session that has just started, of which the first returns; and a text in the
place of the count. -/
theorem repeatTimes_unrolls_return :
    let m := Session.initial.machine ⟨0, fun _ => .zero, none⟩ {} 0
    let body : List Stmt := [.returnWith default (.constant (.bool true))]
    let text : Expr := .constant (.text "three")
    Ends (fun fuel => do
        let _ ← expr fuel Store.globals (.constant (.number (.ofNat 3)))
        sequence (stmt fuel Store.globals) (List.replicate 3 (.block body))) m
        (.done (.returned (.bool true)) { m with store := (m.store.alloc Store.globals []).2 }) ∧
      Ends (fun fuel => stmt fuel Store.globals (.repeatTimes default text body)) m
        (.fault (((default : Token).diagnose (.runtime .invalidRepeatCount)).inFile 0) m) := by
  intro m body text
  have hthree : Ends (fun fuel => expr fuel Store.globals (.constant (.number (.ofNat 3)))) m
      (.done (.number (.ofNat 3)) m) := ⟨nofun, 1, rfl⟩
  have htext : Ends (fun fuel => expr fuel Store.globals text) m (.done (.text "three") m) :=
    ⟨nofun, 1, rfl⟩
  have hvalue : (Number.ofNat 3).value? = some ((3 : Nat) : ℚ) :=
    (Number.toCount?_eq_some.1 (by decide)).2
  refine ⟨?_, ((repeatTimes_unrolls htext default body).2 nofun _).2 rfl⟩
  have hloop := (repeatTimes_unrolls hthree default body).1 _ 3 rfl hvalue (by decide) (by decide)
  exact (hloop _).1.1 ⟨nofun, 3, rfl⟩

end Offside.Eval
