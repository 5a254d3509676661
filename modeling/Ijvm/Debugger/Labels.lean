import Ijvm.Debugger.Restart

/-!
# Breakpoints at labels

A label should stand for the address of the first section with its name, or of the first
function. Without sections the functions are never searched, and an address that is equal to
the mark for a missing label counts as one: the search goes on to the functions, and the name
is read as a number.
-/

namespace Ijvm

open Transcript Program

/-- The address of the first of the `n` symbols from the `i`-th on with this name. -/
def firstNamed (names : Nat → List Byte) (addrs : List Word) (labelName : List Byte) (i n : Nat) :
    Option Word :=
  ((List.range' i n).find? fun k => labelName = names k).map fun k => addrs.getD k 0

/-- The names that a search looks at: those up to the one it finds. -/
def comparedFrom (names : Nat → List Byte) (labelName : List Byte) : Nat → Nat → List (List Byte)
  | _, 0 => []
  | i, n + 1 =>
      names i :: if labelName = names i then [] else comparedFrom names labelName (i + 1) n

/-- Copy these strings; without memory for a copy the behaviour is undefined. -/
def copyAll : List (List Byte) → VM Unit
  | [] => pure ()
  | src :: rest => do
      match ← copyString src with
      | none => Program.stop .undefined
      | some _ => copyAll rest

namespace DebugData

variable (d : DebugData) (labelName : List Byte)

def sectionAddress : Option Word :=
  firstNamed (getSectionName d) d.secLabel.addr labelName 0 d.secLabel.num

def functionAddress : Option Word :=
  firstNamed (getFuncName d) d.funcLabel.addr labelName 0 d.funcLabel.num

/-- What a label should stand for: sections come before functions. -/
def labelAddress : Option Word := (d.sectionAddress labelName).or (d.functionAddress labelName)

/-- The search goes on to the functions. -/
def SearchesFunctions : Prop :=
  (d.sectionAddress labelName).getD notFound = notFound ∧ d.funcLabel.num ≠ 0

instance : Decidable (d.SearchesFunctions labelName) := inferInstanceAs (Decidable (_ ∧ _))

/-- What a label stands for. -/
def foundAddress : Word :=
  if d.secLabel.num = 0 then notFound
  else if d.SearchesFunctions labelName then (d.functionAddress labelName).getD notFound
  else (d.sectionAddress labelName).getD notFound

def compared : List (List Byte) :=
  if d.secLabel.num = 0 then []
  else comparedFrom (getSectionName d) labelName 0 d.secLabel.num ++
    if d.SearchesFunctions labelName then
      comparedFrom (getFuncName d) labelName 0 d.funcLabel.num
    else []

end DebugData

/-- A label resolves as it should: the lookup yields its address, or the mark for a missing
one, and a breakpoint at the label is one at its address. -/
structure ResolvesLabel (r : DbgEnv) (x : Session) (labelName : List Byte) (granted : Bool) :
    Prop where
  lookup : ∃ t es, (labelNameToAddr x.debugData labelName).run r.forLookup x.forLookup =
    .done ((x.debugData.labelAddress labelName).getD notFound) t es
  breakpoint : ∀ a, x.debugData.labelAddress labelName = some a → ∃ y es,
    (execBreak labelName granted).run r x = .done () y es ∧ y.dbg.brkpts = x.dbg.brkpts ++ [a]

section Search

variable {names : Nat → List Byte} {addrs : List Word} {labelName : List Byte}

theorem copyAll_append (first second : List (List Byte)) :
    copyAll (first ++ second) = (do copyAll first; copyAll second) := by
  induction first with
  | nil => exact (pure_bind _ _).symm
  | cons src first ih =>
      rw [List.cons_append, copyAll, copyAll, ih, bind_assoc]
      congr 1
      funext copy
      cases copy with
      | none => rfl
      | some name => rfl

theorem firstNamed_succ (i n : Nat) :
    firstNamed names addrs labelName i (n + 1) =
      if labelName = names i then some (addrs.getD i 0)
      else firstNamed names addrs labelName (i + 1) n := by
  rw [firstNamed, List.range'_succ, List.find?_cons]
  by_cases same : labelName = names i
  · rw [if_pos same, decide_eq_true same]
    rfl
  · rw [if_neg same, decide_eq_false same]
    rfl

/-- A search copies the names up to the one it finds, and returns its address. -/
theorem searchLabel_eq (i n : Nat) :
    searchLabel names addrs labelName i n = (do
      copyAll (comparedFrom names labelName i n)
      return firstNamed names addrs labelName i n) := by
  induction n generalizing i with
  | zero => rfl
  | succ n ih =>
      refine Program.ext fun env s => ?_
      have spec := copyString_satisfies env (names i) s
      rw [searchLabel, comparedFrom, copyAll, bind_assoc, run_bind, run_bind]
      cases copy : (copyString (names i)).run env s with
      | stopped e t es => rfl
      | done r t es =>
          rw [copy] at spec
          rw [Outcome.andThen_done, Outcome.andThen_done]
          rcases spec with rfl | rfl
          · congr 1
            rw [firstNamed_succ]
            dsimp only
            by_cases same : labelName = names i
            · rw [if_pos same, if_pos same, if_pos same]
              rfl
            · rw [if_neg same, if_neg same, if_neg same, ih]
          · rfl

/-- The search in both tables. -/
theorem labelNameToAddr_eq (d : DebugData) (labelName : List Byte) :
    labelNameToAddr d labelName = (do
      copyAll (d.compared labelName)
      return d.foundAddress labelName) := by
  rw [labelNameToAddr, DebugData.compared, DebugData.foundAddress]
  by_cases empty : d.secLabel.num = 0
  · rw [if_pos empty, if_pos empty, if_pos empty]
    exact (pure_bind _ _).symm
  · rw [if_neg empty, if_neg empty, if_neg empty, searchLabel_eq, bind_assoc, copyAll_append,
      bind_assoc]
    congr 1
    funext _
    rw [pure_bind]
    change (if (d.sectionAddress labelName).getD notFound ≠ notFound ∨ d.funcLabel.num = 0 then
        pure ((d.sectionAddress labelName).getD notFound)
      else do
        let func? ← searchLabel (getFuncName d) d.funcLabel.addr labelName 0 d.funcLabel.num
        pure (func?.getD ((d.sectionAddress labelName).getD notFound))) = _
    by_cases on : d.SearchesFunctions labelName
    · obtain ⟨missing, some⟩ := id on
      rw [if_pos on, if_pos on, if_neg (by tauto), searchLabel_eq, bind_assoc, missing]
      rfl
    · rw [if_neg on, if_neg on, if_pos (by unfold DebugData.SearchesFunctions at on; tauto)]
      exact (pure_bind _ _).symm

end Search

section Addresses

variable {d : DebugData} {labelName : List Byte} {a : Word}

/-- The number that stands in the list of breakpoints. -/
def breakAddress (d : DebugData) (offset : List Byte) : Word :=
  if d.foundAddress offset = notFound then BitVec.ofInt 32 (strtol offset)
  else d.foundAddress offset

/-- The label is not lost in the search, and its address not taken for a missing one. -/
def Unmistakable (d : DebugData) (labelName : List Byte) (a : Word) : Prop :=
  (a ≠ notFound ∧ d.secLabel.num ≠ 0) ∨
    (a = notFound ∧ BitVec.ofInt 32 (strtol labelName) = notFound ∧
      (d.sectionAddress labelName = some notFound →
        ∀ b, d.functionAddress labelName = some b → b = notFound))

theorem num_ne_zero_of_firstNamed {names : Nat → List Byte} {addrs : List Word} {n : Nat}
    (found : firstNamed names addrs labelName 0 n = some a) : n ≠ 0 := by
  rintro rfl
  contradiction

/-- With sections, the functions are searched when no section, or one at the mark for a
missing label, has the name. -/
theorem foundAddress_of_sections (sections : d.secLabel.num ≠ 0) :
    d.foundAddress labelName =
      if (d.sectionAddress labelName).getD notFound = notFound then
        (d.functionAddress labelName).getD notFound
      else (d.sectionAddress labelName).getD notFound := by
  rw [DebugData.foundAddress, if_neg sections]
  by_cases missing : (d.sectionAddress labelName).getD notFound = notFound
  · rw [if_pos missing]
    by_cases functions : d.funcLabel.num = 0
    · have none : d.functionAddress labelName = none := by
        rw [DebugData.functionAddress, functions]
        rfl
      rw [if_neg (fun on => on.2 functions), missing, none]
      rfl
    · rw [if_pos ⟨missing, functions⟩]
  · rw [if_neg missing, if_neg fun on => missing on.1]

/-- A missing label is not found. -/
theorem foundAddress_of_missing (missing : d.labelAddress labelName = none) :
    d.foundAddress labelName = notFound := by
  obtain ⟨noSection, noFunction⟩ := Option.or_eq_none_iff.mp missing
  rw [DebugData.foundAddress, noSection, noFunction]
  simp

/-- A function label, as no section has its name. -/
theorem function_right_iff (noSection : d.sectionAddress labelName = none)
    (function : d.functionAddress labelName = some a) :
    (d.foundAddress labelName = a ∧ breakAddress d labelName = a) ↔
      Unmistakable d labelName a := by
  unfold Unmistakable breakAddress
  by_cases empty : d.secLabel.num = 0
  · have found : d.foundAddress labelName = notFound := if_pos empty
    simp only [found, noSection, empty]
    constructor
    · rintro ⟨rfl, number⟩
      exact Or.inr ⟨rfl, number, nofun⟩
    · rintro (⟨_, absurd⟩ | ⟨rfl, number, _⟩)
      · exact (absurd rfl).elim
      · exact ⟨rfl, number⟩
  · have found : d.foundAddress labelName = a := by
      rw [foundAddress_of_sections empty, noSection, function]
      rfl
    simp only [found, noSection, true_and]
    by_cases mark : a = notFound
    · rw [if_pos mark]
      constructor
      · exact fun number => Or.inr ⟨mark, number.trans mark, nofun⟩
      · rintro (⟨other, _⟩ | ⟨_, number, _⟩)
        · exact absurd mark other
        · exact number.trans mark.symm
    · rw [if_neg mark]
      exact iff_of_true rfl (Or.inl ⟨mark, empty⟩)

/-- A section label. -/
theorem section_right_iff (found? : d.sectionAddress labelName = some a) :
    (d.foundAddress labelName = a ∧ breakAddress d labelName = a) ↔
      Unmistakable d labelName a := by
  have sections : d.secLabel.num ≠ 0 := num_ne_zero_of_firstNamed found?
  have found : d.foundAddress labelName = _ := foundAddress_of_sections sections
  rw [found?, Option.getD_some] at found
  unfold Unmistakable breakAddress
  by_cases mark : a = notFound
  · rw [if_pos mark] at found
    rw [found, found?]
    subst mark
    constructor
    · rintro ⟨same, number⟩
      rw [if_pos same] at number
      refine Or.inr ⟨rfl, number, fun _ b function => ?_⟩
      rw [function] at same
      exact same
    · rintro (⟨other, _⟩ | ⟨_, number, only⟩)
      · exact absurd rfl other
      · have same : (d.functionAddress labelName).getD notFound = notFound := by
          cases function : d.functionAddress labelName with
          | none => rfl
          | some b => exact only rfl b function
        exact ⟨same, by rw [if_pos same, number]⟩
  · rw [if_neg mark] at found
    rw [found, if_neg mark]
    exact iff_of_true ⟨rfl, rfl⟩ (Or.inl ⟨mark, sections⟩)

/-- A label and a breakpoint at it have the right address if the label is unmistakable. -/
theorem addresses_right_iff (label : d.labelAddress labelName = some a) :
    (d.foundAddress labelName = a ∧ breakAddress d labelName = a) ↔
      Unmistakable d labelName a := by
  rw [DebugData.labelAddress] at label
  cases found? : d.sectionAddress labelName with
  | none =>
      rw [found?, Option.none_or] at label
      exact function_right_iff found? label
  | some b =>
      rw [found?, Option.some_or] at label
      rw [Option.some.inj label] at found?
      exact section_right_iff found?

end Addresses

section Breaking

variable {r : DbgEnv} {x : Session} {labelName : List Byte} {granted : Bool}

/-- There is memory for the copies of all names that are compared. -/
def CopiesNames (r : DbgEnv) (x : Session) (labelName : List Byte) : Prop :=
  ∃ t es, (copyAll (x.debugData.compared labelName)).run r.forLookup x.forLookup = .done () t es

theorem labelNameToAddr_done {env : Env} {s t : State} {d : DebugData} {w : Word}
    {es : List Event} :
    (labelNameToAddr d labelName).run env s = .done w t es ↔
      (copyAll (d.compared labelName)).run env s = .done () t es ∧
        w = d.foundAddress labelName := by
  rw [labelNameToAddr_eq, run_bind_done]
  constructor
  · rintro ⟨_, u, fs, gs, copies, found, rfl⟩
    injection found with value same none
    subst same none
    exact ⟨by rw [List.append_nil]; exact copies, value.symm⟩
  · rintro ⟨copies, rfl⟩
    exact ⟨(), t, es, [], copies, rfl, (List.append_nil es).symm⟩

/-- What a breakpoint that can be set adds to the list. -/
theorem execBreak_run (loaded : x.dbg.progState ≠ .empty) {t : State} {es : List Event}
    (copies : (copyAll (x.debugData.compared labelName)).run r.forLookup x.forLookup =
      .done () t es) :
    ∃ y fs, (execBreak labelName true).run r x = .done () y fs ∧
      y.dbg.brkpts = x.dbg.brkpts ++ [breakAddress x.debugData labelName] := by
  have lookup := labelNameToAddr_done.mpr ⟨copies, rfl⟩
  rw [execBreak, run_bind, run_get, Outcome.andThen_done, Outcome.prepend_nil, if_neg loaded,
    if_neg (by decide), run_bind, lookUp_run, onMachine_run, lookup]
  exact ⟨_, _, rfl, rfl⟩

/-- Without memory for the list, all breakpoints are lost. -/
theorem execBreak_refused (loaded : x.dbg.progState ≠ .empty) :
    (execBreak labelName false).run r x =
      .done () { x with dbg := { x.dbg with quitFlag := true, brkpts := [] } } [] := by
  rw [execBreak, run_bind, run_get, Outcome.andThen_done, Outcome.prepend_nil, if_neg loaded,
    if_pos rfl, run_modifyDbg]

/-- A label that resolves is unmistakable. -/
theorem unmistakable_of_resolves (loaded : x.dbg.progState ≠ .empty) {a : Word}
    (resolves : ResolvesLabel r x labelName granted)
    (label : x.debugData.labelAddress labelName = some a) :
    granted = true ∧ Unmistakable x.debugData labelName a := by
  obtain ⟨t, es, lookup⟩ := resolves.lookup
  obtain ⟨copies, found⟩ := labelNameToAddr_done.mp lookup
  obtain ⟨y, fs, run, added⟩ := resolves.breakpoint a label
  rw [label, Option.getD_some] at found
  cases granted with
  | false =>
      injection (execBreak_refused loaded).symm.trans run with _ same
      rw [← same] at added
      simp at added
  | true =>
      obtain ⟨z, gs, run', added'⟩ := execBreak_run loaded copies
      injection run'.symm.trans run with _ same
      rw [same, added] at added'
      have there : breakAddress x.debugData labelName = a := by simpa using added'.symm
      exact ⟨rfl, (addresses_right_iff label).mp ⟨found.symm, there⟩⟩

end Breaking

/-- A label in a loaded program resolves if its names can be copied, the breakpoint can be
stored, and the label is unmistakable. -/
theorem resolvesLabel_iff {r : DbgEnv} {x : Session} (labelName : List Byte) (granted : Bool)
    (loaded : x.dbg.progState ≠ .empty) :
    ResolvesLabel r x labelName granted ↔ CopiesNames r x labelName ∧
      ∀ a, x.debugData.labelAddress labelName = some a →
        granted = true ∧ Unmistakable x.debugData labelName a := by
  constructor
  · intro resolves
    obtain ⟨t, es, lookup⟩ := resolves.lookup
    exact ⟨⟨t, es, (labelNameToAddr_done.mp lookup).1⟩,
      fun a label => unmistakable_of_resolves loaded resolves label⟩
  · rintro ⟨⟨t, es, copies⟩, right⟩
    constructor
    · refine ⟨t, es, labelNameToAddr_done.mpr ⟨copies, ?_⟩⟩
      cases label : x.debugData.labelAddress labelName with
      | none => exact (foundAddress_of_missing label).symm
      | some a => exact ((addresses_right_iff label).mpr (right a label).2).1.symm
    · intro a label
      obtain ⟨rfl, unmistakable⟩ := right a label
      obtain ⟨y, fs, run, added⟩ := execBreak_run loaded copies
      refine ⟨y, fs, run, ?_⟩
      rw [added, ((addresses_right_iff label).mpr unmistakable).2]

/-- A session with a program that has one function `f` at the address 8, and no sections. -/
def Session.functionOnly : Session :=
  Session.loaded DbgEnv.quiet State.fresh
    { funcLabel := { num := 1, addr := [8], names := [0x66, 0], namesStart := [0] }
      secLabel := .init } "a.ijvm" []

theorem resolvesLabel_iff_functionOnly :
    ResolvesLabel DbgEnv.quiet Session.functionOnly [0x66] true ↔
      CopiesNames DbgEnv.quiet Session.functionOnly [0x66] ∧
        ∀ a, Session.functionOnly.debugData.labelAddress [0x66] = Option.some a →
          true = true ∧ Unmistakable Session.functionOnly.debugData [0x66] a :=
  resolvesLabel_iff [0x66] true nofun

/-- Without sections, a function label is not found, and the breakpoint is at 0. -/
theorem functionOnly_notResolved : ¬ ∀ r (x : Session) labelName, x.dbg.progState ≠ .empty →
    ResolvesLabel r x labelName true := by
  intro resolves
  have label : Session.functionOnly.debugData.labelAddress [0x66] = Option.some 8 := rfl
  obtain ⟨_, ⟨_, sections⟩ | ⟨mark, _⟩⟩ := unmistakable_of_resolves (x := Session.functionOnly)
    nofun (resolves DbgEnv.quiet Session.functionOnly [0x66] nofun) label
  · exact sections rfl
  · exact absurd mark (by decide)

end Ijvm
