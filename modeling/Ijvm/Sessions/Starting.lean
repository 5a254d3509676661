import Ijvm.Sessions.Forgetting

/-!
# The tables of a process that has loaded a binary

`initIjvm` touches neither the arrays nor the connections when it succeeds, so that a program
starts without any.
-/

namespace Ijvm

open Transcript Program

/-- Loading a binary creates no arrays and no connections. -/
abbrev KeepsReleased {α : Type} (m : VM α) : Prop :=
  Keeps (fun _ => True) State.Released (fun _ => True) m

theorem allocate_keepsReleased : KeepsReleased allocate :=
  fun _ _ released _ => ⟨Outcome.returns_done.mpr released, fun _ _ => trivial⟩

theorem loadConsts_keepsReleased (f : List Byte) : KeepsReleased (loadConsts f) := by
  unfold loadConsts
  split
  · split
    · refine .bind (.modify fun _ released => released) fun _ => ?_
      apply Ensures.ite
      · exact fun _ => Keeps.pure _
      · refine fun _ => .bind (allocate_keepsReleased) fun _ =>
          .ite (fun _ => Keeps.pure _) fun _ => ?_
        split
        · exact .bind (Keeps.modify fun _ released => released) fun _ => Keeps.pure _
        · exact Keeps.pure _
    · exact .pure _
  · exact .pure _

theorem loadCode_keepsReleased (f : List Byte) : KeepsReleased (loadCode f) := by
  unfold loadCode
  split
  · split
    · refine .bind (.modify fun _ released => released) fun _ => ?_
      refine .bind (allocate_keepsReleased) fun _ => .ite (fun _ => Keeps.pure _) fun _ => ?_
      split
      · exact .bind .ask fun _ => .bind (.modify fun _ released => released) fun _ => .pure _
      · exact .pure _
    · exact .pure _
  · exact .pure _

theorem loadBin_keepsReleased (file : Option (List Byte)) : KeepsReleased (loadBin file) := by
  unfold loadBin
  split
  · split
    · refine .ite (fun _ => Keeps.pure _) fun _ =>
        .bind (loadConsts_keepsReleased _) fun rest => ?_
      split
      · refine .bind (loadCode_keepsReleased _) fun rest' => ?_
        split
        · exact .pure _
        · exact .pure _
      · exact .pure _
    · exact .pure _
  · exact .pure _

theorem initStack_keepsReleased : KeepsReleased initStack := by
  refine .bind (getNumLocalVarsMain_scans.mono (fun _ released => released) fun _ _ h => h.1)
    fun n => .ite (fun _ => .stop _) fun _ => ?_
  have rest : Keeps (fun _ => True) State.Released (fun _ => True) (do
      if (← allocate) = false then
        destroyIjvmNow .initStackAlloc
      else
        let env ← Program.ask
        modifyCpu fun c => { c with
          sp := n - 1
          lv := 0
          nv := n
          fp := n
          stack := fun i => if 0 ≤ i ∧ i < n then 0 else env.stackMemory i } : VM Unit) :=
    .bind (allocate_keepsReleased) fun _ => .ite (fun _ => .stop _) fun _ =>
      .bind .ask fun _ => .modify fun _ released => released
  cases initialStackSize n.toNat with
  | none => exact rest
  | some size => exact .bind (.modify fun _ released => released) fun _ => rest

/-- A successful initialization leaves the tables as they were. -/
theorem initIjvm_released (file : Option (List Byte)) :
    Ensures (fun _ => True) State.Released (fun _ => True) (initIjvm file)
      fun code t => code = 0 → t.Released := by
  have keeps {f : State → State} (same : ∀ s, (f s).arrMem = s.arrMem ∧ (f s).netConn = s.netConn) :
      KeepsReleased (modify f) :=
    .modify fun s released => ⟨(same s).1.trans released.1, (same s).2.trans released.2⟩
  refine .bind (loadBin_keepsReleased _) fun loaded => .ite (fun _ => ?_) fun _ => ?_
  · exact .bind ((anything _).mono (fun _ _ => trivial) fun _ _ h => h) fun _ =>
      .pure fun t _ h => absurd h (by decide)
  · exact .bind (keeps fun _ => ⟨rfl, rfl⟩) fun _ => .bind initStack_keepsReleased fun _ =>
      .bind (keeps fun _ => ⟨rfl, rfl⟩) fun _ => .bind Keeps.ask fun _ =>
      .bind (keeps fun _ => ⟨rfl, rfl⟩) fun _ => .bind (keeps fun _ => ⟨rfl, rfl⟩) fun _ =>
      .pure fun _ released _ => released

/-- A process starts with no arrays and no connections. -/
theorem released_of_after {env : Env} {file : List Byte} {s : State}
    (started : after env file 0 = some s) : s.Released := by
  obtain ⟨es, init⟩ := init_of_after started
  exact (initIjvm_released _ env State.fresh ⟨rfl, rfl⟩ fun _ _ => trivial).1 0 s es init rfl

end Ijvm
