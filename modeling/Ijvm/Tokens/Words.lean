import Mathlib.Data.List.Basic

/-!
# The words of a line

`words` are the non-empty pieces of a list between separators. `token` takes the first of them
and the rest of the line, so that repeated calls return the words one after the other.
-/

namespace Tokens

variable {α : Type} [DecidableEq α] {sep : α} {s rest w : List α} {ws : List (List α)}

/-- The pieces between separators, without the empty ones. -/
def words (sep : α) (s : List α) : List (List α) := (s.splitOn sep).filter (· ≠ [])

/-- The first word, and what is behind the separator that ends it. -/
def token (sep : α) (s : List α) : Option (List α × List α) :=
  let start := s.dropWhile (· = sep)
  if start = [] then none
  else some (start.takeWhile (· ≠ sep), (start.dropWhile (· ≠ sep)).drop 1)

/-- The text can be a word: it has characters, and no separator among them. -/
def IsWord (sep : α) (w : List α) : Prop := w ≠ [] ∧ sep ∉ w

instance : Decidable (IsWord sep w) := inferInstanceAs (Decidable (_ ∧ _))

@[simp] theorem words_nil : words sep [] = [] := rfl

@[simp] theorem words_sep (s : List α) : words sep (sep :: s) = words sep s := by
  simp [words, List.splitOn_cons_eq_if_modifyHead]

theorem IsWord.words (h : IsWord sep w) : words sep w = [w] := by
  simp [Tokens.words, List.splitOn_eq_singleton h.2, h.1]

theorem IsWord.words_append (h : IsWord sep w) (s : List α) :
    Tokens.words sep (w ++ sep :: s) = w :: Tokens.words sep s := by
  simp [Tokens.words, List.splitOn_append_cons_self_of_not_mem h.2, h.1]

theorem words_dropWhile (s : List α) : words sep (s.dropWhile (· = sep)) = words sep s := by
  induction s with
  | nil => rfl
  | cons c s ih =>
      by_cases same : c = sep
      · subst same
        rw [List.dropWhile_cons_of_pos (by simp), ih, words_sep]
      · rw [List.dropWhile_cons_of_neg (by simpa using same)]

theorem words_replicate (n : Nat) (s : List α) :
    words sep (List.replicate n sep ++ s) = words sep s := by
  induction n with
  | zero => rfl
  | succ n ih => rw [List.replicate_succ, List.cons_append, words_sep, ih]

/-- Separators behind a word. -/
theorem IsWord.words_replicate (h : IsWord sep w) (n : Nat) :
    Tokens.words sep (w ++ List.replicate n sep) = [w] := by
  cases n with
  | zero => rw [List.replicate_zero, List.append_nil, h.words]
  | succ n =>
      have blank := @Tokens.words_replicate _ _ sep n []
      rw [List.append_nil] at blank
      rw [List.replicate_succ, h.words_append, blank, words_nil]

/-- A list goes up to its first separator, if it has one, and on behind it. -/
theorem takeWhile_cut (s : List α) :
    sep ∉ s.takeWhile (· ≠ sep) ∧
      (s.takeWhile (· ≠ sep) = s ∧ (s.dropWhile (· ≠ sep)).drop 1 = [] ∨
        s = s.takeWhile (· ≠ sep) ++ sep :: (s.dropWhile (· ≠ sep)).drop 1) := by
  induction s with
  | nil => simp
  | cons c s ih =>
      by_cases same : c = sep
      · subst same
        simp
      · rw [List.takeWhile_cons_of_pos (by simpa using same),
          List.dropWhile_cons_of_pos (by simpa using same)]
        obtain ⟨clean, ⟨whole, none⟩ | cut⟩ := ih
        · exact ⟨List.not_mem_cons_of_ne_of_not_mem (Ne.symm same) clean,
            .inl ⟨by rw [whole], none⟩⟩
        · exact ⟨List.not_mem_cons_of_ne_of_not_mem (Ne.symm same) clean,
            .inr (congrArg (c :: ·) cut)⟩

/-- What `token` leaves out at the front. -/
theorem head?_dropWhile_ne (s : List α) : (s.dropWhile (· = sep)).head? ≠ some sep := by
  induction s with
  | nil => simp
  | cons c s ih =>
      by_cases same : c = sep
      · rw [List.dropWhile_cons_of_pos (by simpa using same)]
        exact ih
      · rw [List.dropWhile_cons_of_neg (by simpa using same)]
        simpa using same

/-- A line that starts with a word. -/
theorem words_cut (start : s ≠ []) (first : s.head? ≠ some sep) :
    IsWord sep (s.takeWhile (· ≠ sep)) ∧
      words sep s = s.takeWhile (· ≠ sep) :: words sep ((s.dropWhile (· ≠ sep)).drop 1) := by
  obtain ⟨clean, cut⟩ := @takeWhile_cut _ _ sep s
  have word : IsWord sep (s.takeWhile (· ≠ sep)) := by
    refine ⟨?_, clean⟩
    cases s with
    | nil => exact absurd rfl start
    | cons c s =>
        rw [List.takeWhile_cons_of_pos (by simpa using first)]
        exact List.cons_ne_nil _ _
  refine ⟨word, ?_⟩
  obtain ⟨whole, none⟩ | cut := cut
  · rw [none, words_nil, ← word.words, whole]
  · rw [← word.words_append, ← cut]

/-- Without a word, the line is blank. -/
theorem token_eq_none : token sep s = none ↔ words sep s = [] := by
  rw [← words_dropWhile, token]
  by_cases start : s.dropWhile (· = sep) = []
  · simp [start]
  · simp [start, (words_cut start (head?_dropWhile_ne s)).2]

/-- The first word, and the others. -/
theorem words_of_token (h : token sep s = some (w, rest)) :
    IsWord sep w ∧ words sep s = w :: words sep rest := by
  rw [← words_dropWhile s]
  dsimp only [token] at h
  by_cases start : s.dropWhile (· = sep) = []
  · rw [if_pos start] at h
    contradiction
  · rw [if_neg start] at h
    obtain ⟨rfl, rfl⟩ := Prod.mk.inj (Option.some.inj h)
    exact words_cut start (head?_dropWhile_ne s)

/-- What the call number `n` returns, when each call goes on where the one before has ended. -/
def nthToken (sep : α) : Nat → List α → Option (List α)
  | 0, s => (token sep s).map Prod.fst
  | n + 1, s => (token sep s).bind fun p => nthToken sep n p.2

/-- The calls return the words in order, and then nothing. -/
theorem nthToken_eq (n : Nat) (s : List α) : nthToken sep n s = (words sep s)[n]? := by
  induction n generalizing s with
  | zero =>
      rw [nthToken]
      cases first : token sep s with
      | none => rw [token_eq_none.mp first]; rfl
      | some p => rw [(words_of_token first).2]; rfl
  | succ n ih =>
      rw [nthToken]
      cases first : token sep s with
      | none => rw [token_eq_none.mp first]; rfl
      | some p => rw [(words_of_token first).2, List.getElem?_cons_succ, ← ih]; rfl

end Tokens
