import Ijvm.Debugger.Info
import Ijvm.Tokens.Words

/-!
# What a line of the user means

`cmd_decoder` compares the whole line with the commands that stand alone, and the words of the
line with those that take an argument. The copy of the line that `strtok` cuts is one byte too
short for its terminating NUL, which is not modelled.
-/

namespace Ijvm

open Tokens

def blank : Byte := 32

inductive Bare where
  | step | «continue» | backtrace | run | start | help | quit
  deriving DecidableEq, Repr

/-- The commands with an argument. -/
inductive Unary where
  | info | «break» | input | file
  deriving DecidableEq, Repr

def Bare.text : Bare → List Byte
  | .step => ascii ['s', 't', 'e', 'p']
  | .continue => ascii ['c', 'o', 'n', 't', 'i', 'n', 'u', 'e']
  | .backtrace => ascii ['b', 'a', 'c', 'k', 't', 'r', 'a', 'c', 'e']
  | .run => ascii ['r', 'u', 'n']
  | .start => ascii ['s', 't', 'a', 'r', 't']
  | .help => ascii ['h', 'e', 'l', 'p']
  | .quit => ascii ['q', 'u', 'i', 't']

def Unary.text : Unary → List Byte
  | .info => ascii ['i', 'n', 'f', 'o']
  | .break => ascii ['b', 'r', 'e', 'a', 'k']
  | .input => ascii ['i', 'n', 'p', 'u', 't']
  | .file => ascii ['f', 'i', 'l', 'e']

inductive Entered where
  | bare (b : Bare)
  | unary (u : Unary) (arg : List Byte)
  deriving DecidableEq, Repr

/-- What a line is taken for: a command, or the message that `cmd` is undefined, or the
comparison of the null pointer for a command with a string. -/
inductive Decoded where
  | command (c : Entered)
  | undefined (cmd : List Byte)
  | nullCommand
  deriving DecidableEq, Repr

/-- `cmd_decoder`, up to the call of the command. -/
def cmdDecoder (wholeCmd : List Byte) : Decoded :=
  let arg1 := nthToken blank 1 wholeCmd
  let arg2 := nthToken blank 2 wholeCmd
  if wholeCmd = Bare.step.text then .command (.bare .step)
  else if wholeCmd = Bare.continue.text then .command (.bare .continue)
  else match nthToken blank 0 wholeCmd with
  | none => .nullCommand
  | some cmd =>
      if cmd = Unary.info.text ∧ arg1 ≠ none ∧ arg2 = none then
        .command (.unary .info (arg1.getD []))
      else if wholeCmd = Bare.backtrace.text then .command (.bare .backtrace)
      else if cmd = Unary.break.text ∧ arg1 ≠ none ∧ arg2 = none then
        .command (.unary .break (arg1.getD []))
      else if wholeCmd = Bare.run.text then .command (.bare .run)
      else if cmd = Unary.input.text ∧ arg1 ≠ none ∧ arg2 = none then
        .command (.unary .input (arg1.getD []))
      else if cmd = Unary.file.text ∧ arg1 ≠ none ∧ arg2 = none then
        .command (.unary .file (arg1.getD []))
      else if wholeCmd = Bare.start.text then .command (.bare .start)
      else if wholeCmd = Bare.help.text then .command (.bare .help)
      else if wholeCmd = Bare.quit.text then .command (.bare .quit)
      else .undefined cmd

/-- The line enters the command: a command that stands alone as it is written, and one with an
argument as its two words, with any spaces around them. -/
def Entered.Fits (line : List Byte) : Entered → Prop
  | .bare b => line = b.text
  | .unary u arg => words blank line = [u.text, arg]

section Decoding

variable {line cmd arg : List Byte} {c : Entered}

theorem Bare.isWord (b : Bare) : IsWord blank b.text := by
  cases b <;> decide

theorem Unary.isWord (u : Unary) : IsWord blank u.text := by
  cases u <;> decide

/-- A line with two words is no command that stands alone. -/
theorem ne_bare (fits : words blank line = [cmd, arg]) (b : Bare) : line ≠ b.text := by
  rintro rfl
  simp [b.isWord.words] at fits

theorem cmdDecoder_of_unary {u : Unary} (fits : words blank line = [u.text, arg]) :
    cmdDecoder line = .command (.unary u arg) := by
  have other (b : Bare) : ¬ line = b.text := ne_bare fits b
  simp only [cmdDecoder, nthToken_eq, fits, other, if_false]
  cases u <;> rfl

theorem cmdDecoder_of_bare (b : Bare) : cmdDecoder b.text = .command (.bare b) := by
  cases b <;> rfl

theorem cmdDecoder_of_fits (fits : c.Fits line) : cmdDecoder line = .command c := by
  cases c with
  | bare b => exact fits ▸ cmdDecoder_of_bare b
  | unary u arg => exact cmdDecoder_of_unary fits

/-- Spaces do not matter to a command with an argument. -/
theorem cmdDecoder_spaced (u : Unary) (word : IsWord blank arg) (i j k : Nat) :
    cmdDecoder (List.replicate i blank ++ (u.text ++ blank :: (List.replicate j blank ++
      (arg ++ List.replicate k blank)))) = .command (.unary u arg) := by
  apply cmdDecoder_of_unary
  rw [words_replicate, u.isWord.words_append, words_replicate, word.words_replicate]

/-- Two words and no third. -/
theorem words_eq_pair (first : nthToken blank 0 line = some cmd)
    (second : nthToken blank 1 line ≠ none) (third : nthToken blank 2 line = none) :
    words blank line = [cmd, (nthToken blank 1 line).getD []] := by
  rw [nthToken_eq] at first second third
  rw [nthToken_eq]
  match words blank line, first, second, third with
  | [_, arg], rfl, _, _ => rfl
  | [_], _, second, _ => exact absurd rfl second

/-- What was decoded is in the line. -/
def Decoded.Sound (line : List Byte) : Decoded → Prop
  | .command c => c.Fits line
  | .undefined cmd => (words blank line).head? = some cmd
  | .nullCommand => words blank line = []

theorem cmdDecoder_sound (line : List Byte) : (cmdDecoder line).Sound line := by
  have choice {p : Prop} [Decidable p] {d e : Decoded} (yes : p → d.Sound line)
      (no : ¬ p → e.Sound line) : (if p then d else e).Sound line := by
    split
    · exact yes ‹_›
    · exact no ‹_›
  refine choice (fun alone => alone) fun _ => choice (fun alone => alone) fun _ => ?_
  cases first : nthToken blank 0 line with
  | none =>
      rw [nthToken_eq, List.getElem?_eq_none_iff, Nat.le_zero, List.length_eq_zero_iff] at first
      exact first
  | some cmd =>
      have named : (words blank line).head? = some cmd := by
        rw [List.head?_eq_getElem?, ← nthToken_eq, first]
      have unary {u : Unary} (h : cmd = u.text ∧ nthToken blank 1 line ≠ none ∧
          nthToken blank 2 line = none) :
          (Decoded.command (.unary u ((nthToken blank 1 line).getD []))).Sound line :=
        words_eq_pair (h.1 ▸ first) h.2.1 h.2.2
      exact choice unary fun _ => choice (fun alone => alone) fun _ => choice unary fun _ =>
        choice (fun alone => alone) fun _ => choice unary fun _ => choice unary fun _ =>
        choice (fun alone => alone) fun _ => choice (fun alone => alone) fun _ =>
        choice (fun alone => alone) fun _ => named

/-- The command language: a line is taken for a command exactly if it is entered as one, for a
missing one exactly if it is blank, and else its first word is reported. -/
theorem cmdDecoder_spec (line : List Byte) :
    (∀ c, cmdDecoder line = .command c ↔ c.Fits line) ∧
      (cmdDecoder line = .nullCommand ↔ words blank line = []) ∧
      ∀ cmd, cmdDecoder line = .undefined cmd ↔
        (words blank line).head? = some cmd ∧ ∀ c : Entered, ¬ c.Fits line := by
  have sound := cmdDecoder_sound line
  have command (c : Entered) : cmdDecoder line = .command c ↔ c.Fits line := by
    refine ⟨fun decoded => ?_, cmdDecoder_of_fits⟩
    rw [decoded] at sound
    exact sound
  refine ⟨command, ?_, fun cmd => ?_⟩
  · refine ⟨fun decoded => ?_, fun empty => ?_⟩
    · rw [decoded] at sound
      exact sound
    · cases decoded : cmdDecoder line with
      | nullCommand => rfl
      | undefined cmd =>
          rw [decoded, Decoded.Sound, empty] at sound
          contradiction
      | command c =>
          have fits := (command c).mp decoded
          cases c with
          | bare b =>
              obtain rfl : line = b.text := fits
              simp [b.isWord.words] at empty
          | unary u arg =>
              rw [Entered.Fits, empty] at fits
              contradiction
  · constructor
    · intro decoded
      rw [decoded] at sound
      refine ⟨sound, fun c fits => ?_⟩
      rw [(command c).mpr fits] at decoded
      contradiction
    · rintro ⟨named, none⟩
      cases decoded : cmdDecoder line with
      | nullCommand =>
          rw [decoded, Decoded.Sound] at sound
          rw [sound] at named
          contradiction
      | undefined cmd' =>
          rw [decoded, Decoded.Sound, named] at sound
          rw [Option.some.inj sound]
      | command c => exact absurd ((command c).mp decoded) (none c)

end Decoding

end Ijvm
