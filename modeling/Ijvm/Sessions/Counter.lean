import Ijvm.Sessions.Marks

/-!
# Programs that show what was run before

The counter decides at which creation the collector runs. The program `probe` creates two
arrays in each turn of its loop and drops them before it collects; whether the second one
gets a fresh reference in a turn depends on whether the collector ran in between. A turn
advances the counter by two, modulo 101, so every counter shows after at most 100 turns.

Marks that were released are shown by every program that collects.
-/

namespace Ijvm

open Transcript Program

section Creating

variable {env : Env} {s t u : State} {arr : Block} {i n : Nat} {es : List Event}

theorem getFreeIndex_few (few : s.elementCreations < 100) (free : s.arrMem.firstFree = some i) :
    (getFreeIndex arrMem).run env s =
      .done i { s with elementCreations := s.elementCreations + 1 } [] := by
  have below : ¬ s.elementCreations ≥ 100 := by omega
  simp only [getFreeIndex, run_bind, run_get, Outcome.andThen_done, if_neg below, run_modify,
    run_pure, Outcome.prepend_done, List.nil_append, arrMem, free, Option.getD_some]

theorem getFreeIndex_many (many : 100 ≤ s.elementCreations)
    (collect : arrGc.run env { s with elementCreations := 0 } = .done n t es)
    (free : t.arrMem.firstFree = some i) : (getFreeIndex arrMem).run env s = .done i t es := by
  simp only [getFreeIndex, run_bind, run_get, Outcome.andThen_done, if_pos many, run_modify,
    run_pure, Outcome.prepend_done, collect, List.append_nil, List.nil_append, arrMem, free,
    Option.getD_some]

/-- A new array takes the index that the search finds. -/
theorem arrStore_run (arr : Block) (prepare : arrPrepare.run env s = .done () t [])
    (search : (getFreeIndex arrMem).run env t = .done i u es) (small : i < sizeMaxUint32)
    (legal : isArrRef (indexToRef arrTag i) = true) :
    (arrStore arr).run env s =
      .done (indexToRef arrTag i) { u with arrMem := u.arrMem.store i arr } es := by
  have add : (marrAddElement arrMem arr).run env t =
      .done i { u with arrMem := u.arrMem.store i arr } es := by
    simp only [marrAddElement, run_bind, search, Outcome.andThen_done, if_neg (Nat.ne_of_lt small),
      run_get, run_modify, run_pure, Outcome.prepend_done, List.append_nil]
    rfl
  have save : (arrSave arr).run env t =
      .done i { u with arrMem := u.arrMem.store i arr } es := by
    simp only [arrSave, run_bind, add, Outcome.andThen_done, if_neg (Nat.not_le_of_lt small),
      run_pure, Outcome.prepend_done, List.append_nil]
  simp only [arrStore, run_bind, prepare, save, Outcome.andThen_done, legal, run_pure,
    Outcome.prepend_done, List.append_nil, List.nil_append, Bool.true_eq_false, if_false]

/-- A turn of the loop of `run` with an instruction that has no prefix. -/
theorem turn_of_execOp (op : Op) (running : finished s.gCpu = false)
    (here : s.Executes s.gCpu.pc op)
    (exec : (execOp (pure true) op).run env (s.atOp s.gCpu.pc) = .done () t es) :
    turn env s = some t := by
  obtain ⟨fetches, _, run⟩ := step_run env here.found
  rw [execAt_run here, exec, Outcome.andThen_done, Outcome.prepend_done, Outcome.andThen_done,
    endOfStep, if_pos rfl] at run
  rw [turn, running, run]
  rfl

end Creating

section Probe

/-- `loop: BIPUSH 1; NEWARRAY; POP; BIPUSH 1; NEWARRAY; POP; GC; GOTO loop` -/
def probe : Option (List Byte) :=
  some (assemble [] [Op.bipush.code, 1, Op.newarray.code, Op.pop.code, Op.bipush.code, 1,
    Op.newarray.code, Op.pop.code, Op.gc.code, Op.goto.code, 0xFF, 0xF7])

def probeCpu : Cpu := ((initIjvm probe).run Env.quiet State.fresh).state.gCpu

/-- The machine in the loop. -/
def probeAt (pc sp : Int) (stack : Int → Word) (table : MArr Block) (marks : List Bool)
    (creations clock : Nat) : State where
  gCpu := { probeCpu with pc := pc, sp := sp, stack := stack }
  arrMem := table
  markedArrays := marks
  elementCreations := creations
  netConn := .none
  nextOpWide := false
  inFile := []
  outFile := []
  clock := clock

/-- The table of a program that has dropped all its arrays. -/
def cleared : MArr Block where
  size := 64
  map := List.replicate 64 false
  values := List.replicate 64 []

def firstOnly : MArr Block := cleared.store 0 [1, 0]

def firstAndSecond : MArr Block := firstOnly.store 1 [1, 0]

variable {stack : Int → Word} {table : MArr Block} {marks : List Bool} {creations clock : Nat}

theorem probe_starts (creations clock : Nat) :
    afterFrom Env.quiet { State.fresh with elementCreations := creations, clock := clock } probe 0 =
      some (probeAt 0 (-1) probeCpu.stack .none [] creations (clock + 3)) :=
  rfl

theorem turn_first_bipush : turn Env.quiet (probeAt 0 (-1) stack table marks creations clock) =
    some (probeAt 2 0 (setCell stack 0 1) table marks creations clock) :=
  rfl

theorem turn_first_pop : turn Env.quiet (probeAt 3 0 stack table marks creations clock) =
    some (probeAt 4 (-1) stack table marks creations clock) :=
  rfl

theorem turn_second_bipush : turn Env.quiet (probeAt 4 (-1) stack table marks creations clock) =
    some (probeAt 6 0 (setCell stack 0 1) table marks creations clock) :=
  rfl

theorem turn_second_pop : turn Env.quiet (probeAt 7 0 stack table marks creations clock) =
    some (probeAt 8 (-1) stack table marks creations clock) :=
  rfl

theorem turn_goto : turn Env.quiet (probeAt 9 (-1) stack table marks creations clock) =
    some (probeAt 0 (-1) stack table marks creations clock) := by
  have back : (joinBytes 0xFF 0xF7 - 3).toInt = -12 := by decide
  have offset : getJumpOffset.run Env.quiet (probeAt 10 (-1) stack table marks creations clock) =
      .done (joinBytes 0xFF 0xF7 - 3).toInt (probeAt 12 (-1) stack table marks creations clock)
        [.signed 12, .code 10 12, .code 11 12] := rfl
  have exec : execOpGoto.run Env.quiet (probeAt 10 (-1) stack table marks creations clock) =
      .done () (probeAt 0 (-1) stack table marks creations clock)
        [.signed 12, .code 10 12, .code 11 12, .signed 0] := by
    rw [execOpGoto, run_bind, offset, back]
    rfl
  exact turn_of_execOp .goto rfl (executes_at_pc rfl rfl (by decide)) exec

theorem turn_gc (arrays : table = firstOnly ∨ table = firstAndSecond) :
    ∃ marks', turn Env.quiet (probeAt 8 (-1) stack table marks creations clock) =
      some (probeAt 9 (-1) stack cleared marks' creations (clock + 1)) := by
  obtain rfl | rfl := arrays
  · exact ⟨_, rfl⟩
  · exact ⟨_, rfl⟩

/-- NEWARRAY at `pc` when 1 is on the stack. -/
theorem turn_newarray (pc : Int) (here : pc = 2 ∨ pc = 6) {ref : Word} {table' : MArr Block}
    {marks' : List Bool} {creations' clock' : Nat} {es : List Event}
    (store : (arrStore [1, 0]).run Env.quiet
      (probeAt (pc + 1) (-1) (setCell stack 0 1) table marks creations (clock + 1)) =
        .done ref (probeAt (pc + 1) (-1) (setCell stack 0 1) table' marks' creations' clock') es) :
    turn Env.quiet (probeAt pc 0 (setCell stack 0 1) table marks creations clock) =
      some (probeAt (pc + 1) 0 (setCell (setCell stack 0 1) 0 ref) table' marks' creations'
        clock') := by
  have create : (arrCreate 1).run Env.quiet
      (probeAt (pc + 1) (-1) (setCell stack 0 1) table marks creations clock) =
        .done ref (probeAt (pc + 1) (-1) (setCell stack 0 1) table' marks' creations' clock')
          es := by
    have one : ¬ (1 : Word).toInt ≤ 0 := by decide
    rw [arrCreate, run_bind, run_get, Outcome.andThen_done, Outcome.prepend_nil, arrCreateFuel,
      if_neg one, run_bind, run_allocate, Outcome.andThen_done, Outcome.prepend_nil]
    exact store
  have exec : execOpNewarray.run Env.quiet
      (probeAt (pc + 1) 0 (setCell stack 0 1) table marks creations clock) =
        .done () (probeAt (pc + 1) 0 (setCell (setCell stack 0 1) 0 ref) table' marks' creations'
          clock') ([.stack .pop 0 4096] ++ (es ++ [.stack .push 0 4096])) := by
    have pop : (stackPop .pop).run Env.quiet
        (probeAt (pc + 1) 0 (setCell stack 0 1) table marks creations clock) =
          .done 1 (probeAt (pc + 1) (-1) (setCell stack 0 1) table marks creations clock)
            [.stack .pop 0 4096] := rfl
    rw [execOpNewarray, run_bind, pop, Outcome.andThen_done, run_bind, create]
    rfl
  obtain rfl | rfl := here
  · exact turn_of_execOp .newarray rfl (executes_at_pc rfl rfl (by decide)) exec
  · exact turn_of_execOp .newarray rfl (executes_at_pc rfl rfl (by decide)) exec

/-- The first creation of a turn; whether the collector runs or not, nothing is claimed. -/
theorem turn_first_creation (stack : Int → Word) (marks : List Bool) (creations clock : Nat)
    (empty : table = .none ∨ table = cleared) :
    ∃ marks' creations' clock',
      turn Env.quiet (probeAt 2 0 (setCell stack 0 1) table marks creations clock) =
        some (probeAt 3 0 (setCell (setCell stack 0 1) 0 0xAA00000A) firstOnly marks' creations'
          clock') ∧
      min creations' 100 = (min creations 100 + 1) % 101 := by
  have legal : isArrRef (indexToRef arrTag 0) = true := by decide
  have prepare : ∃ clock', arrPrepare.run Env.quiet
      (probeAt 3 (-1) (setCell stack 0 1) table marks creations (clock + 1)) =
        .done () (probeAt 3 (-1) (setCell stack 0 1) cleared marks creations clock') [] := by
    obtain rfl | rfl := empty
    · exact ⟨_, rfl⟩
    · exact ⟨_, rfl⟩
  obtain ⟨clock', prepare⟩ := prepare
  by_cases few : creations < 100
  · have store := arrStore_run [1, 0] prepare (getFreeIndex_few few rfl) (by decide) legal
    refine ⟨_, creations + 1, _, turn_newarray 2 (.inl rfl) store, ?_⟩
    omega
  · have collect : ∃ marks' es, arrGc.run Env.quiet
        (probeAt 3 (-1) (setCell stack 0 1) cleared marks 0 clock') =
          .done 0 (probeAt 3 (-1) (setCell stack 0 1) cleared marks' 0 (clock' + 1)) es :=
      ⟨_, _, rfl⟩
    obtain ⟨marks', es, collect⟩ := collect
    have store := arrStore_run [1, 0] prepare
      (getFreeIndex_many (Nat.le_of_not_lt few) collect rfl) (by decide) legal
    refine ⟨_, 0, _, turn_newarray 2 (.inl rfl) store, ?_⟩
    omega

/-- The second creation of a turn takes the index of the first array if the collector runs. -/
theorem turn_second_creation :
    ∃ stack' table' marks' creations' clock',
      turn Env.quiet (probeAt 6 0 (setCell stack 0 1) firstOnly marks creations clock) =
        some (probeAt 7 0 stack' table' marks' creations' clock') ∧
      (table' = if min creations 100 = 100 then firstOnly else firstAndSecond) ∧
      min creations' 100 = (min creations 100 + 1) % 101 := by
  have prepare : arrPrepare.run Env.quiet
      (probeAt 7 (-1) (setCell stack 0 1) firstOnly marks creations (clock + 1)) =
        .done () (probeAt 7 (-1) (setCell stack 0 1) firstOnly marks creations (clock + 1))
          [] := rfl
  by_cases few : creations < 100
  · have legal : isArrRef (indexToRef arrTag 1) = true := by decide
    have store := arrStore_run [1, 0] prepare (getFreeIndex_few few rfl) (by decide) legal
    refine ⟨_, firstAndSecond, _, creations + 1, _, turn_newarray 6 (.inr rfl) store, ?_, ?_⟩
    · rw [if_neg (by omega)]
    · omega
  · have legal : isArrRef (indexToRef arrTag 0) = true := by decide
    have collect : ∃ marks' es, arrGc.run Env.quiet
        (probeAt 7 (-1) (setCell stack 0 1) firstOnly marks 0 (clock + 1)) =
          .done 1 (probeAt 7 (-1) (setCell stack 0 1) cleared marks' 0 (clock + 2)) es :=
      ⟨_, _, rfl⟩
    obtain ⟨marks', es, collect⟩ := collect
    have store := arrStore_run [1, 0] prepare
      (getFreeIndex_many (Nat.le_of_not_lt few) collect rfl) (by decide) legal
    refine ⟨_, firstOnly, _, 0, _, turn_newarray 6 (.inr rfl) store, ?_, ?_⟩
    · rw [if_pos (by omega)]
    · omega

/-- The beginning of the loop, by the number of creations since the collector last ran. -/
def AtHead (r : Nat) (s : State) : Prop :=
  ∃ stack table marks creations clock, (table = .none ∨ table = cleared) ∧
    min creations 100 = r ∧ s = probeAt 0 (-1) stack table marks creations clock

theorem afterFrom_next {env : Env} {u s t : State} {file : Option (List Byte)} {n : Nat}
    (reached : afterFrom env u file n = some s) (next : turn env s = some t) :
    afterFrom env u file (n + 1) = some t := by
  rw [afterFrom, reached]
  exact next

/-- A turn of the loop: what the table is after the second creation, and the next turn. -/
theorem probe_round {u s : State} {n r : Nat}
    (reached : afterFrom Env.quiet u probe n = some s) (head : AtHead r s) :
    (∃ t, afterFrom Env.quiet u probe (n + 5) = some t ∧
      t.arrMem = if r = 99 then firstOnly else firstAndSecond) ∧
    ∃ t, afterFrom Env.quiet u probe (n + 8) = some t ∧ AtHead ((r + 2) % 101) t := by
  obtain ⟨stack, table, marks, creations, clock, empty, rfl, rfl⟩ := head
  obtain ⟨_, creations₁, _, first, count₁⟩ := turn_first_creation stack marks creations
    clock empty
  have at₃ := afterFrom_next (afterFrom_next reached turn_first_bipush) first
  have at₅ := afterFrom_next (afterFrom_next at₃ turn_first_pop) turn_second_bipush
  obtain ⟨stack', table', _, creations₂, _, second, shows, count₂⟩ := turn_second_creation
  have at₆ := afterFrom_next at₅ second
  refine ⟨⟨_, at₆, ?_⟩, ?_⟩
  · have same : min creations₁ 100 = 100 ↔ min creations 100 = 99 := by omega
    simp only [same] at shows
    exact shows
  · have collected : ∃ marks' clock', afterFrom Env.quiet u probe (n + 7) =
        some (probeAt 9 (-1) stack' cleared marks' creations₂ clock') := by
      have arrays : table' = firstOnly ∨ table' = firstAndSecond := by
        rw [shows]
        exact ite_eq_or_eq _ _ _
      obtain ⟨marks', gc⟩ := turn_gc arrays
      exact ⟨marks', _, afterFrom_next (afterFrom_next at₆ turn_second_pop) gc⟩
    obtain ⟨_, _, at₇⟩ := collected
    refine ⟨_, afterFrom_next at₇ turn_goto, _, _, _, _, _, .inr rfl, ?_, rfl⟩
    omega

/-- The number of creations after `j` turns of the loop. -/
theorem probe_rounds (creations clock j : Nat) :
    ∃ s, afterFrom Env.quiet { State.fresh with elementCreations := creations, clock := clock }
      probe (8 * j) = some s ∧ AtHead ((min creations 100 + 2 * j) % 101) s := by
  induction j with
  | zero =>
      refine ⟨_, probe_starts _ _, _, _, _, _, _, .inl rfl, ?_, rfl⟩
      omega
  | succ j ih =>
      obtain ⟨s, reached, head⟩ := ih
      obtain ⟨_, t, reached', head'⟩ := probe_round reached head
      have count : ((min creations 100 + 2 * j) % 101 + 2) % 101 =
          (min creations 100 + 2 * (j + 1)) % 101 := by omega
      rw [count] at head'
      exact ⟨t, reached', head'⟩

/-- After `5` steps of turn `j` of the loop, the collector has just run, or not. -/
theorem probe_shows (creations clock j : Nat) :
    ∃ s, afterFrom Env.quiet { State.fresh with elementCreations := creations, clock := clock }
      probe (8 * j + 5) = some s ∧
      s.arrMem = if (min creations 100 + 2 * j) % 101 = 99 then firstOnly else firstAndSecond := by
  obtain ⟨s, reached, head⟩ := probe_rounds creations clock j
  exact (probe_round reached head).1

theorem State.Released.shows {u : State} (released : u.Released) (used : u.elementCreations ≠ 0) :
    ¬ u.Forgets := by
  intro forgets
  let j := 51 * (200 - min u.elementCreations 100) % 101
  have ground : { State.fresh with elementCreations := u.elementCreations, clock := u.clock
      : State }.SameGround u := ⟨⟨rfl, rfl⟩, released, rfl, rfl⟩
  have same := forgets Env.quiet probe (8 * j + 5) fun _ => rfl
  rw [← visible_eq (afterFrom_agrees _ _ _ ground)] at same
  obtain ⟨s, run, table⟩ := probe_shows u.elementCreations u.clock j
  obtain ⟨t, run', table'⟩ := probe_shows 0 u.clock j
  have fresh : afterFrom Env.quiet { State.fresh with clock := u.clock } probe (8 * j + 5) =
    some t := run'
  rw [run, fresh, Option.map_some, Option.map_some] at same
  have seen : s.visible = t.visible := Option.some.inj same
  have tables : s.visible.arrMem = t.visible.arrMem := by rw [seen]
  change s.arrMem = t.arrMem at tables
  rw [table, table', if_pos (by omega), if_neg (by omega)] at tables
  exact absurd (congrArg (fun m : MArr Block => m.map.getD 1 false) tables) (by decide)

end Probe

section Marks

/-- GC; HALT -/
def collectFirst : Option (List Byte) := some (assemble [] [Op.gc.code, Op.halt.code])

theorem collectFirst_collects (creations clock : Nat) : ∃ s,
    afterFrom Env.quiet { State.fresh with elementCreations := creations, clock := clock }
      collectFirst 0 = some s ∧ Process.Collects Env.quiet s = true ∧
        (turn Env.quiet s).isSome = true :=
  ⟨_, rfl, rfl, rfl⟩

/-- A program that collects releases the marks of an earlier one for a second time. -/
theorem Process.shows_released {p : Process} (released : p.machine.Released)
    (stale : p.marks = .released) : ¬ p.Forgets := by
  intro forgets
  have same := forgets Env.quiet collectFirst 1 fun _ => rfl
  have later : p.afterFrom Env.quiet collectFirst 1 = none := by
    obtain ⟨s, start, collects, _⟩ :=
      collectFirst_collects p.machine.elementCreations p.machine.clock
    have ground : State.SameGround { State.fresh with
        elementCreations := p.machine.elementCreations
        clock := p.machine.clock } p.machine := ⟨⟨rfl, rfl⟩, released, rfl, rfl⟩
    have alike := afterFrom_agrees Env.quiet collectFirst 0 ground
    rw [start] at alike
    cases reached : Ijvm.afterFrom Env.quiet p.machine collectFirst 0 with
    | none => rw [Process.afterFrom, Process.afterFrom, reached]; rfl
    | some t =>
        rw [reached] at alike
        obtain ⟨same⟩ := alike
        rw [collects_alike same] at collects
        rw [Process.afterFrom, Process.afterFrom, reached, Option.map_some, Option.bind_some,
          Process.turn, collects, stale]
        cases Ijvm.turn Env.quiet t with
        | none => rfl
        | some u => rfl
  have first : (Process.afterFrom Env.quiet ⟨{ State.fresh with clock := p.machine.clock }, .null⟩
      collectFirst 1).isSome = true := by
    obtain ⟨marks, _, run⟩ := Process.afterFrom_eq Env.quiet
      ⟨{ State.fresh with clock := p.machine.clock }, .null⟩ collectFirst 1
      (Or.inl MarksPointer.noConfusion)
    obtain ⟨s, start, _, next⟩ := collectFirst_collects 0 p.machine.clock
    have start : Ijvm.afterFrom Env.quiet { State.fresh with clock := p.machine.clock } collectFirst
      0 = some s := start
    rw [run, Option.isSome_map, Ijvm.afterFrom, start, Option.bind_some]
    exact next
  rw [Process.Same, later, Option.map_none] at same
  rw [← Option.isSome_map (f := Process.visible), ← same] at first
  contradiction

end Marks

/-- A process without a program forgets what was run in it exactly if the number of creations
stands where it does at the start, and no marks were left behind. Released marks show only in a
program that collects. -/
theorem forgets_iff {p : Process} (idle : p.Idle) :
    (p.Forgets ↔ p.machine.elementCreations = 0 ∧ p.marks = .null) ∧
      (p.machine.elementCreations = 0 → ∀ env file n, (∀ k, env.alloc k = true) →
        Process.Collectionless env { State.fresh with clock := p.machine.clock } file n →
          p.Same env file n) := by
  have released := idle.released
  constructor
  · rcases idle.marks with null | stale
    · rw [Process.forgets_of_null null, and_iff_left null]
      refine ⟨fun forgets => ?_, State.forgets_of_unused released⟩
      by_contra used
      exact released.shows used forgets
    · refine iff_of_false (Process.shows_released released stale) fun unused => ?_
      rw [stale] at unused
      exact absurd unused.2 MarksPointer.noConfusion
  · exact fun unused _ _ _ granted none =>
      Process.same_of_collectionless released unused granted none

theorem forgets_iff_fresh : (Process.fresh.Forgets ↔
      Process.fresh.machine.elementCreations = 0 ∧ Process.fresh.marks = .null) ∧
    (Process.fresh.machine.elementCreations = 0 → ∀ env file n, (∀ k, env.alloc k = true) →
      Process.Collectionless env State.fresh file n → Process.fresh.Same env file n) :=
  forgets_iff .fresh

/-- A process that destroys the program after `n` turns does not forget it. -/
def Remembered (file : Option (List Byte)) (n : Nat) : Prop :=
  ∃ env q u es marks, Process.fresh.afterFrom env file n = some q ∧
    destroyIjvm.run env q.machine = .done () u es ∧ q.marks.destroy = some marks ∧
    ¬ Process.Forgets ⟨u, marks⟩

/-- The first creation of the loop is not the last one before a collection. -/
theorem probe_uses : ∃ t u es, afterFrom Env.quiet State.fresh probe 2 = some t ∧
    destroyIjvm.run Env.quiet t = .done () u es ∧ u.Released ∧ u.elementCreations ≠ 0 := by
  obtain ⟨_, creations', _, creation, count⟩ := turn_first_creation probeCpu.stack [] 0 3
    (.inl rfl)
  have ran := afterFrom_next (afterFrom_next (probe_starts 0 0)
    turn_first_bipush) creation
  have destroyed (stack : Int → Word) (marks : List Bool) (clock : Nat) :
      ∃ u es, destroyIjvm.run Env.quiet (probeAt 3 0 stack firstOnly marks creations' clock) =
        .done () u es ∧ u.Released ∧ u.elementCreations = creations' :=
    ⟨_, _, rfl, ⟨rfl, rfl⟩, rfl⟩
  obtain ⟨u, es, destroy, released, same⟩ := destroyed _ _ _
  exact ⟨_, u, es, ran, destroy, released, by omega⟩

/-- One array was created before, or the collector has run. -/
theorem session_remembered : Remembered probe 2 ∧ Remembered collectFirst 1 := by
  constructor
  · obtain ⟨t, u, es, ran, destroy, released, used⟩ := probe_uses
    obtain ⟨marks, live, run⟩ := Process.afterFrom_eq Env.quiet .fresh
      probe 2 (Or.inl MarksPointer.noConfusion)
    rw [show Process.fresh.machine = State.fresh from rfl, ran] at run
    cases left : marks t with
    | null =>
        refine ⟨Env.quiet, _, u, es, .null, run, destroy, congrArg MarksPointer.destroy left, ?_⟩
        rw [Process.forgets_of_null rfl]
        exact released.shows used
    | live =>
        exact ⟨Env.quiet, _, u, es, .released, run, destroy, congrArg MarksPointer.destroy left,
          Process.shows_released released rfl⟩
    | released => exact absurd left (live MarksPointer.noConfusion t)
  · have started : Process.fresh.afterFrom Env.quiet collectFirst 1 = some ⟨_, .live⟩ := rfl
    exact ⟨Env.quiet, _, _, _, _, started, rfl, rfl, Process.shows_released ⟨rfl, rfl⟩ rfl⟩

end Ijvm
