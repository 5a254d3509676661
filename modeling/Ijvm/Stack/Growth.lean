import Ijvm.Stack.Plain

/-!
# The stack while it grows

While `stackPush` enlarges the stack, `sp` is ahead of it, and a refused reallocation runs
the collector. An assertion about the CPU that has `GrowthRules` survives the growth, with
a guarantee about all that happens in between; one that has `StackRules` survives every
instruction of a frame.
-/

namespace Ijvm

open Transcript Program

theorem Aside.meets {α : Type} {c : Cpu} {m : VM α} (leaves : ∀ wide, Aside c wide m) :
    Meets (fun t => t.gCpu = c) (Event.aside c) m (fun _ t => t.gCpu = c)
      fun r t => t.gCpu = c ∧ r ≠ .error .stackOutOfMemory := by
  intro env s hs
  refine (leaves s.nextOpWide env s ⟨hs, rfl⟩).mono ?_ fun _ _ _ final => final
  exact fun _ _ _ final => ⟨final.1.1, final.2⟩

section Octupling

variable {c : Cpu}

/-- The check of `octupleStackSize` lets the stack grow. -/
def Cpu.Growable (c : Cpu) : Prop := 0 < c.stackSize ∧ c.stackSize ≤ 2 ^ 27

def Cpu.octupled (c : Cpu) : Cpu := { c with stackSize := c.stackSize * 8 }

theorem Cpu.Sized.growable_iff (sized : c.Sized) :
    ¬ (expectedSize c.stackSize > 4294967296 ∨ expectedSize c.stackSize = 0) ↔ c.Growable := by
  obtain ⟨nonneg, bound⟩ := sized
  rw [expectedSize, Int.emod_eq_of_lt nonneg (by omega), Cpu.Growable]
  omega

theorem octupleStackSizeFuel_meets (sized : c.Sized) (fuel : Nat) :
    Meets (fun t => t.gCpu = c) (Event.aside c) (octupleStackSizeFuel fuel)
      (fun b t => b = true ∧ c.Growable ∧ t.gCpu = c.octupled)
      fun r t => t.gCpu = c ∧ (r = .error .stackOutOfMemory → ¬ c.Growable) := by
  induction fuel with
  | zero => exact .stop fun _ hs => ⟨hs, nofun⟩
  | succ fuel ih =>
      refine .get_bind fun s hs => ?_
      rw [hs]
      refine .ite (fun limit => ?_) fun fits => ?_
      · exact .stop fun _ ht => ⟨ht, fun _ growable => sized.growable_iff.mpr growable limit⟩
      have growable := sized.growable_iff.mp fits
      have aside {α : Type} {m : VM α} (leaves : ∀ wide, Aside c wide m) :
          Meets (fun t => t.gCpu = c) (Event.aside c) m (fun _ t => t.gCpu = c)
            fun r t => t.gCpu = c ∧ (r = .error .stackOutOfMemory → ¬ c.Growable) :=
        (Aside.meets leaves).mono (fun _ hs => hs) (fun _ he => he) (fun _ _ hs => hs)
          fun _ _ stopped => ⟨stopped.1, fun limit => absurd limit stopped.2⟩
      refine .bind (aside fun _ => allocate_aside) fun granted => .ite (fun _ => ?_) fun _ => ?_
      · refine .bind (.modify fun t ht => ?_) fun _ => .pure fun _ ht => ⟨rfl, growable, ht⟩
        show { t.gCpu with stackSize := t.gCpu.stackSize * 8 } = c.octupled
        rw [ht]
        rfl
      · refine .bind (aside fun _ => arrGc_aside) fun freed => .ite (fun _ => ih) fun _ => ?_
        exact .stop fun _ ht => ⟨ht, nofun⟩

/-- Octupling sees one CPU, on which the collector runs after each refused reallocation. It
runs out of memory only if the check fails. -/
theorem octupleStackSize_meets (sized : c.Sized) :
    Meets (fun t => t.gCpu = c) (Event.aside c) octupleStackSize
      (fun b t => b = true ∧ c.Growable ∧ t.gCpu = c.octupled)
      fun r t => t.gCpu = c ∧ (r = .error .stackOutOfMemory → ¬ c.Growable) :=
  .get_bind fun _ _ => octupleStackSizeFuel_meets sized _

/-- The collector records the state in which it was entered. -/
theorem arrGc_enters (env : Env) (s : State) : .gc s ∈ (arrGc.run env s).events := by
  rw [arrGc, run_bind, run_get, Outcome.andThen_done, Outcome.prepend_nil, run_bind, run_emit,
    Outcome.andThen_done, Outcome.events_prepend]
  exact List.mem_append_left _ (List.mem_singleton.mpr rfl)

section Attempts

variable {env : Env} {s : State}

theorem octupleStackSize_run (env : Env) (s : State) :
    octupleStackSize.run env s = (octupleStackSizeFuel (s.arrMem.size + 1)).run env s := by
  rw [octupleStackSize, run_bind, run_get, Outcome.andThen_done, Outcome.prepend_nil]

/-- A stack that is too large, or empty, does not grow. -/
theorem octupleStackSize_limit (sized : s.gCpu.Sized) (limit : ¬ s.gCpu.Growable) :
    octupleStackSize.run env s = .stopped (.error .stackOutOfMemory) s [] := by
  rw [octupleStackSize_run, octupleStackSizeFuel_run,
    if_pos (Classical.not_not.mp (sized.growable_iff.not.mpr limit))]

theorem octupleStackSize_granted (sized : s.gCpu.Sized) (growable : s.gCpu.Growable)
    (granted : env.alloc s.clock = true) :
    octupleStackSize.run env s =
      .done true { s with gCpu := s.gCpu.octupled, clock := s.clock + 1 } [] := by
  rw [octupleStackSize_run, octupleStackSizeFuel_run, if_neg (sized.growable_iff.mpr growable),
    if_pos granted]
  rfl

/-- A refused reallocation runs the collector at once. -/
theorem octupleStackSize_refused (sized : s.gCpu.Sized) (growable : s.gCpu.Growable)
    (refused : env.alloc s.clock = false) :
    .gc { s with clock := s.clock + 1 } ∈ (octupleStackSize.run env s).events := by
  rw [octupleStackSize_run, octupleStackSizeFuel_run, if_neg (sized.growable_iff.mpr growable),
    if_neg (by simp [refused])]
  exact Outcome.mem_events_andThen (arrGc_enters env _)

end Attempts

end Octupling

/-- What an assertion `I` about the CPU needs in order to survive the growth of the stack. -/
structure GrowthRules (I : Cpu → Prop) (guar : Event → Prop) (E : Stop → State → Prop) : Prop where
  sized : ∀ {c}, I c → c.Sized
  octupled : ∀ {c}, I c → c.Growable → c.stackSize ≤ c.sp → I c.octupled
  aside : ∀ {c e}, I c → e.aside c → guar e
  stops : ∀ {c r t}, I c → t.gCpu = c →
    (r = .error .stackOutOfMemory → c.stackSize ≤ c.sp ∧ ¬ c.Growable) → E r t

namespace GrowthRules

variable {I : Cpu → Prop} {guar : Event → Prop} {E : Stop → State → Prop}

theorem octuple (h : GrowthRules I guar E) {c : Cpu} (holds : I c) (above : c.stackSize ≤ c.sp) :
    Meets (fun t => t.gCpu = c) guar octupleStackSize (fun b t => b = true ∧ I t.gCpu) E := by
  refine (octupleStackSize_meets (h.sized holds)).mono (fun _ hs => hs) (fun _ => h.aside holds)
    ?_ ?_
  · rintro b t ⟨rfl, growable, cpu⟩
    rw [cpu]
    exact ⟨rfl, h.octupled holds growable above⟩
  · exact fun r t stopped => h.stops holds stopped.1 fun limit => ⟨above, stopped.2 limit⟩

theorem growStackFuel (h : GrowthRules I guar E) (fuel : Nat) :
    Meets (fun t => I t.gCpu) guar (growStackFuel fuel)
      (fun b t => b = true ∧ I t.gCpu ∧ t.gCpu.sp < t.gCpu.stackSize) E := by
  induction fuel with
  | zero => exact .stop fun t ht => h.stops ht rfl nofun
  | succ fuel ih =>
      refine .read_bind fun s hs => .ite (fun above => ?_) fun below => .pure ?_
      · refine .bind (Q := fun b t => b = true ∧ I t.gCpu) ?_ fun b => .ite (fun refused => ?_)
          fun _ => ?_
        · refine (h.octuple hs above).mono_pre ?_
          rintro t rfl
          rfl
        · exact fun _ _ grown => absurd grown.1 refused
        · exact ih.mono_pre fun _ grown => grown.2
      · rintro t rfl
        exact ⟨rfl, hs, Int.lt_of_not_ge below⟩

theorem growStack (h : GrowthRules I guar E) :
    Meets (fun t => I t.gCpu) guar growStack
      (fun b t => b = true ∧ I t.gCpu ∧ t.gCpu.sp < t.gCpu.stackSize) E :=
  .get_bind fun _ _ => h.growStackFuel _

end GrowthRules

/-- What an assertion `I` about the CPU needs in order to survive the instructions of a frame.
While a push enlarges the stack, `J` holds in its place. -/
structure StackRules (I J : Cpu → Prop) (guar : Event → Prop) (E : Stop → State → Prop) :
    Prop where
  growth : GrowthRules J guar E
  weaken : ∀ {c}, I c → J c
  raised : ∀ {c}, I c → J { c with sp := c.sp + 1 }
  settled : ∀ {c}, J c → c.sp < c.stackSize → I c
  popped : ∀ {c}, I c → ¬ c.Empty → I { c with sp := c.sp - 1 }
  same : ∀ {c c'}, I c → c'.sp = c.sp → c'.stackSize = c.stackSize → I c'
  computing : ∀ {e}, e.computing → guar e
  access : ∀ {c a i}, I c → a ≠ .root → guar (.stack a i c.stackSize)

namespace StackRules

variable {I J : Cpu → Prop} {guar : Event → Prop} {E : Stop → State → Prop}

/-- The judgment that `I` survives a program. -/
abbrev Survives (I : Cpu → Prop) (guar : Event → Prop) (E : Stop → State → Prop) (α : Type)
    (m : VM α) : Prop :=
  Meets (fun t => I t.gCpu) guar m (fun _ t => I t.gCpu) E

theorem refuse (h : StackRules I J guar E) {α : Type} {P : State → Prop} {Q : α → State → Prop}
    {e : Err} (other : e ≠ .stackOutOfMemory) (holds : ∀ t, P t → I t.gCpu) :
    Meets P guar (destroyIjvmNow e : VM α) Q E :=
  .stop fun t ht => h.growth.stops (h.weaken (holds t ht)) rfl
    fun limit => absurd (Stop.error.inj limit) other

theorem aside (h : StackRules I J guar E) {α : Type} {m : VM α}
    (leaves : ∀ cpu wide, Aside cpu wide m) : Survives I guar E α m := by
  intro env s hs
  refine (Aside.meets (leaves s.gCpu) env s rfl).mono ?_ ?_
  · rintro a t es ⟨cpu, events⟩
    exact ⟨h.same hs (by rw [cpu]) (by rw [cpu]),
      fun e member => h.growth.aside (h.weaken hs) (events e member)⟩
  · rintro r t es ⟨⟨cpu, other⟩, events⟩
    exact ⟨h.growth.stops (h.weaken hs) cpu fun limit => absurd limit other,
      fun e member => h.growth.aside (h.weaken hs) (events e member)⟩

/-- An access to the stack of a CPU that was just read. -/
theorem access_emit (h : StackRules I J guar E) {s : State} (holds : I s.gCpu) {a : StackAccess}
    (i : Int) (own : a ≠ .root) :
    Meets (fun t => t = s) guar (Program.emit [.stack a i s.gCpu.stackSize] : VM Unit)
      (fun _ t => t = s) E :=
  .emit (by simpa using h.access holds own)

theorem modify (h : StackRules I J guar E) {f : Cpu → Cpu} (sp : ∀ c, (f c).sp = c.sp)
    (size : ∀ c, (f c).stackSize = c.stackSize) : Survives I guar E Unit (modifyCpu f) :=
  .modify fun t ht => h.same ht (sp t.gCpu) (size t.gCpu)

theorem pop (h : StackRules I J guar E) (access : StackAccess) (own : access ≠ .root) :
    Survives I guar E Word (stackPop access) := by
  refine .read_bind fun s hs => .ite (fun _ => h.refuse nofun ?_) fun operand => ?_
  · rintro t rfl
    exact hs
  · refine .bind (h.access_emit hs _ own) fun _ => .bind (Q := fun _ t => I t.gCpu) ?_
      fun _ => .pure fun _ popped => popped
    refine .modify ?_
    rintro t rfl
    exact h.popped hs operand

/-- Writing to the cell at `sp`, once the stack contains it. -/
theorem writeTop (h : StackRules I J guar E) (e : Word) :
    Meets (fun t => J t.gCpu ∧ t.gCpu.sp < t.gCpu.stackSize) guar (writeTop e)
      (fun _ t => I t.gCpu) E := by
  refine .read_bind fun s hs => .bind (h.access_emit (h.settled hs.1 hs.2) _ nofun) fun _ =>
    .modify ?_
  rintro t rfl
  exact h.same (h.settled hs.1 hs.2) rfl rfl

theorem push (h : StackRules I J guar E) (e : Word) : Survives I guar E Bool (stackPush e) := by
  refine .bind (Q := fun _ t => J t.gCpu) (.modify fun t ht => h.raised ht) fun _ => ?_
  refine .read_bind fun s hs => .ite (fun inside => ?_) fun _ => ?_
  · refine .bind ((h.writeTop e).mono_pre ?_) fun _ => .pure fun _ written => written
    rintro t rfl
    exact ⟨hs, inside⟩
  · refine .bind (Q := fun b t => b = true ∧ J t.gCpu ∧ t.gCpu.sp < t.gCpu.stackSize) ?_
      fun b => .ite (fun refused _ _ grown => absurd grown.1 refused) fun _ => ?_
    · refine h.growth.growStack.mono_pre ?_
      rintro t rfl
      exact hs
    · exact .bind ((h.writeTop e).mono_pre fun _ grown => grown.2) fun _ =>
        .pure fun _ written => written

theorem load (h : StackRules I J guar E) (i : Int) :
    Survives I guar E Word (getLocalVariable i) := by
  refine .read_bind fun s hs => .ite (fun _ => h.refuse nofun ?_) fun _ =>
    .bind (h.access_emit hs _ nofun) fun _ => .pure ?_
  · rintro t rfl
    exact hs
  · rintro t rfl
    exact hs

theorem store (h : StackRules I J guar E) (v : Word) (i : Int) :
    Survives I guar E Unit (updateLocalVariable v i) := by
  refine .read_bind fun s hs => .ite (fun _ => h.refuse nofun ?_) fun _ =>
    .bind (h.access_emit hs _ nofun) fun _ => .modify ?_
  · rintro t rfl
    exact hs
  · rintro t rfl
    exact h.same hs rfl rfl

theorem dup (h : StackRules I J guar E) : Survives I guar E Unit execOpDup := by
  refine .read_bind fun s hs => .bind (h.access_emit hs _ nofun) fun _ =>
    .bind (Q := fun _ t => I t.gCpu) ?_ fun _ => .pure fun _ pushed => pushed
  refine (h.push _).mono_pre ?_
  rintro t rfl
  exact hs

/-- Survival has the rules of the instructions of a frame. -/
theorem rules (h : StackRules I J guar E) : FrameRules (Survives I guar E) where
  bind := Meets.bind
  aside leaves _ := h.aside leaves
  computing all := .emit fun e member => h.computing (all e member)
  steers {f} steers := h.modify (fun c => by obtain ⟨_, _, _, eq⟩ := steers c; rw [eq])
    fun c => by obtain ⟨_, _, _, eq⟩ := steers c; rw [eq]
  pop := h.pop .pop nofun
  push := h.push
  load := h.load
  store := h.store
  dup := h.dup

theorem setFrame (h : StackRules I J guar E) (numArgs numLocals : Nat) :
    Survives I guar E Unit (setFrame numArgs numLocals) :=
  .bind h.rules.get fun _ => .bind (h.rules.signed _) fun _ =>
    .bind (h.modify (fun _ => rfl) fun _ => rfl) fun _ =>
    .bind (h.modify (fun _ => rfl) fun _ => rfl) fun _ =>
    .bind h.rules.get fun _ => .bind h.rules.get fun _ => .bind (h.rules.signed _) fun _ =>
    h.modify (fun _ => rfl) fun _ => rfl

theorem clearCells (h : StackRules I J guar E) (start : Int) (n : Nat) :
    Survives I guar E Unit (clearCells start n) := by
  refine .read_bind fun s hs => .bind (Q := fun _ t => I t.gCpu) (Meets.mono_pre (.emit ?_) ?_)
    fun _ => ?_
  · intro e member
    obtain ⟨k, _, rfl⟩ := List.mem_map.mp member
    exact h.access hs nofun
  · rintro t rfl
    exact hs
  · exact h.modify (fun _ => rfl) fun _ => rfl

/-- What INVOKEVIRTUAL does once the linkage is on the stack. -/
theorem newFrame (h : StackRules I J guar E) (numArgs numLocals : Nat) :
    Survives I guar E Unit (do
      Ijvm.setFrame numArgs numLocals
      let lv := (← get).gCpu.lv
      if lv < 0 then
        destroyIjvmNow .invokeArgs
      else
        Ijvm.clearCells (lv + numArgs) numLocals) :=
  .bind (h.setFrame _ _) fun _ => .bind h.rules.get fun _ =>
    .ite (fun _ => h.rules.destroy nofun) fun _ => h.clearCells _ _

end StackRules
end Ijvm
