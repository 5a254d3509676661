import Ijvm.Transcript.Basic
import Mathlib.Logic.Relation

/-!
# Loops that test at their end

`doWhile` repeats its body until a condition fails. `ExitsAt` says at which turn, and where,
a condition first holds after the body: a loop with this exit condition returns there, and
nowhere else. `Underway` are the states at the start of a turn.
-/

namespace Transcript
namespace Program

variable {ρ σ ω ε : Type}

/-- `do body while (again)`, for as many turns as there is fuel. -/
def doWhile (exhausted : ε) (body : Program ρ σ ω ε Unit) (again : σ → Prop)
    [DecidablePred again] : Nat → Program ρ σ ω ε Unit
  | 0 => stop exhausted
  | fuel + 1 => do
      body
      if again (← get) then
        doWhile exhausted body again fuel

/-- After `n` turns and not before, a turn ends in a state with the exit condition. -/
inductive ExitsAt (body : Program ρ σ ω ε Unit) (exit : σ → Prop) (r : ρ) :
    σ → Nat → σ → List ω → Prop
  | here {s t : σ} {es : List ω} (turn : body.run r s = .done () t es) (exits : exit t) :
      ExitsAt body exit r s 1 t es
  | later {s t u : σ} {n : Nat} {es fs : List ω} (turn : body.run r s = .done () t es)
      (stays : ¬ exit t) (rest : ExitsAt body exit r t n u fs) :
      ExitsAt body exit r s (n + 1) u (es ++ fs)

/-- A turn that leads from `s` to `t`, and not out of the loop. -/
def Passes (body : Program ρ σ ω ε Unit) (exit : σ → Prop) (r : ρ) (s t : σ) : Prop :=
  (∃ es, body.run r s = .done () t es) ∧ ¬ exit t

/-- The states at the start of a turn. -/
abbrev Underway (body : Program ρ σ ω ε Unit) (exit : σ → Prop) (r : ρ) : σ → σ → Prop :=
  Relation.ReflTransGen (Passes body exit r)

variable {body : Program ρ σ ω ε Unit} {exit exit' : σ → Prop} {r : ρ} {s t u : σ} {n m : Nat}
  {es fs : List ω}

namespace ExitsAt

theorem exits (h : ExitsAt body exit r s n t es) : exit t := by
  induction h with
  | here turn exits => exact exits
  | later turn stays rest ih => exact ih

theorem pos (h : ExitsAt body exit r s n t es) : 0 < n := by
  cases h with
  | here turn exits => exact Nat.one_pos
  | later turn stays rest => exact Nat.succ_pos _

/-- A loop is left in one way only. -/
theorem unique (h : ExitsAt body exit r s n t es) (h' : ExitsAt body exit r s m u fs) :
    n = m ∧ t = u ∧ es = fs := by
  induction h generalizing m u fs with
  | here turn exits =>
      cases h' with
      | here turn' exits' =>
          injection turn.symm.trans turn' with _ same sameEvents
          exact ⟨rfl, same, sameEvents⟩
      | later turn' stays' rest' =>
          injection turn.symm.trans turn' with _ same
          exact absurd (same ▸ exits) stays'
  | later turn stays rest ih =>
      cases h' with
      | here turn' exits' =>
          injection turn.symm.trans turn' with _ same
          exact absurd (same ▸ exits') stays
      | later turn' stays' rest' =>
          injection turn.symm.trans turn' with _ same sameEvents
          subst same sameEvents
          obtain ⟨rfl, rfl, rfl⟩ := ih rest'
          exact ⟨rfl, rfl, rfl⟩

/-- The last turn starts underway. -/
theorem last (h : ExitsAt body exit r s n t es) :
    ∃ u fs, Underway body exit r s u ∧ body.run r u = .done () t fs := by
  induction h with
  | here turn exits => exact ⟨_, _, .refl, turn⟩
  | later turn stays rest ih =>
      obtain ⟨u, fs, underway, final⟩ := ih
      exact ⟨u, fs, underway.head ⟨⟨_, turn⟩, stays⟩, final⟩

/-- A turn that starts underway and leaves the loop is its last. -/
theorem of_underway (underway : Underway body exit r s u) (turn : body.run r u = .done () t fs)
    (exits : exit t) : ∃ n es, ExitsAt body exit r s n t es := by
  induction underway using Relation.ReflTransGen.head_induction_on with
  | refl => exact ⟨1, fs, .here turn exits⟩
  | head first _ ih =>
      obtain ⟨⟨es, turn'⟩, stays⟩ := first
      obtain ⟨n, gs, rest⟩ := ih
      exact ⟨n + 1, es ++ gs, .later turn' stays rest⟩

/-- With a stronger exit condition, the loop is left at the same turn if the condition holds
there. -/
theorem strengthen (stronger : ∀ t, exit' t → exit t) (h : ExitsAt body exit r s n t es)
    (exits : exit' t) : ExitsAt body exit' r s n t es := by
  induction h with
  | here turn _ => exact .here turn exits
  | later turn stays rest ih => exact .later turn (fun exits => stays (stronger _ exits)) (ih exits)

/-- With a weaker exit condition, the loop is left at the same turn or before. -/
theorem weaken (weaker : ∀ t, exit' t → exit t) (h : ExitsAt body exit' r s n t es) :
    ∃ m u fs, ExitsAt body exit r s m u fs ∧ (m < n ∨ u = t) := by
  induction h with
  | here turn exits => exact ⟨1, _, _, .here turn (weaker _ exits), Or.inr rfl⟩
  | @later s t u n es fs turn stays rest ih =>
      by_cases exits : exit t
      · exact ⟨1, t, es, .here turn exits, Or.inl (Nat.succ_lt_succ rest.pos)⟩
      · obtain ⟨m, v, gs, first, order⟩ := ih
        exact ⟨m + 1, v, es ++ gs, .later turn exits first, order.imp_left Nat.succ_lt_succ⟩

end ExitsAt

section Tail

variable {tail : Program ρ σ ω ε Unit}

/-- A tail that leaves the exit condition alone, and only acts where it holds, acts after the last
turn only. -/
theorem exitsAt_bind_iff (quiet : ∀ s, ¬ exit s → tail.run r s = .done () s [])
    (same : ∀ s t es, tail.run r s = .done () t es → (exit t ↔ exit s)) :
    ExitsAt (do body; tail) exit r s n u fs ↔ ∃ t es gs, ExitsAt body exit r s n t es ∧
      tail.run r t = .done () u gs ∧ fs = es ++ gs := by
  constructor
  · intro h
    induction h with
    | here turn exits =>
        obtain ⟨_, t, es, gs, first, last, rfl⟩ := run_bind_done.mp turn
        exact ⟨t, es, gs, .here first ((same _ _ _ last).mp exits), last, rfl⟩
    | later turn stays rest ih =>
        obtain ⟨_, t, es, gs, first, last, rfl⟩ := run_bind_done.mp turn
        have stays' : ¬ exit t := fun exits => stays ((same _ _ _ last).mpr exits)
        injection (quiet t stays').symm.trans last with _ here none
        subst here none
        obtain ⟨v, fs, hs, exits, final, rfl⟩ := ih
        refine ⟨v, es ++ fs, hs, .later first stays' exits, final, ?_⟩
        rw [List.append_nil, List.append_assoc]
  · rintro ⟨t, es, gs, h, last, rfl⟩
    induction h with
    | here turn exits =>
        exact .here (run_bind_done.mpr ⟨_, _, _, _, turn, last, rfl⟩)
          ((same _ _ _ last).mpr exits)
    | @later s t u n es fs turn stays rest ih =>
        have first : (do body; tail).run r s = .done () t es := by
          rw [run_bind_of_done _ turn, quiet t stays, Outcome.prepend_done, List.append_nil]
        rw [List.append_assoc]
        exact .later first stays (ih last)

end Tail

section DoWhile

variable {again : σ → Prop} [DecidablePred again] {exhausted : ε} {fuel : Nat}

theorem doWhile_succ (turn : body.run r s = .done () t es) :
    (doWhile exhausted body again (fuel + 1)).run r s =
      (if again t then (doWhile exhausted body again fuel).run r t else .done () t []).prepend
        es := by
  rw [doWhile, run_bind_of_done _ turn, run_bind, run_get, Outcome.andThen_done,
    Outcome.prepend_nil]
  split
  · rfl
  · rfl

/-- With fuel for the turns, the loop returns where the exit condition first holds. -/
theorem doWhile_of_exitsAt (h : ExitsAt body (fun t => ¬ again t) r s n t es)
    (enough : n ≤ fuel) : (doWhile exhausted body again fuel).run r s = .done () t es := by
  induction h generalizing fuel with
  | here turn exits =>
      obtain ⟨fuel, rfl⟩ := Nat.exists_eq_succ_of_ne_zero (by omega : fuel ≠ 0)
      rw [doWhile_succ turn, if_neg exits, Outcome.prepend_done, List.append_nil]
  | later turn stays rest ih =>
      obtain ⟨fuel, rfl⟩ := Nat.exists_eq_succ_of_ne_zero (by omega : fuel ≠ 0)
      rw [doWhile_succ turn, if_pos (not_not.mp stays), ih (Nat.le_of_succ_le_succ enough),
        Outcome.prepend_done]

/-- Where the loop returns, the exit condition first holds. -/
theorem exitsAt_of_doWhile
    (run : (doWhile exhausted body again fuel).run r s = .done () t es) :
    ∃ n, n ≤ fuel ∧ ExitsAt body (fun t => ¬ again t) r s n t es := by
  induction fuel generalizing s es with
  | zero => contradiction
  | succ fuel ih =>
      cases turn : body.run r s with
      | stopped e u fs =>
          rw [doWhile, run_bind, turn] at run
          contradiction
      | done a u fs =>
          rw [doWhile_succ turn] at run
          split at run
          · rename_i goesOn
            obtain ⟨gs, rest, rfl⟩ := Outcome.prepend_eq_done.mp run
            obtain ⟨n, le, exits⟩ := ih rest
            exact ⟨n + 1, Nat.succ_le_succ le, .later turn (not_not.mpr goesOn) exits⟩
          · rename_i exits
            obtain ⟨gs, same, rfl⟩ := Outcome.prepend_eq_done.mp run
            injection same with _ same none
            subst same none
            rw [List.append_nil]
            exact ⟨1, Nat.le_add_left 1 fuel, .here turn exits⟩

end DoWhile
end Program
end Transcript
