import Ijvm.Symbols.Malformed

/-!
# Reading the symbols back

A file is a binary and two sections of symbols. The symbol loader skips the binary by the
sizes of its blocks and stops where the loader of the binary has stopped; from there it
reads the two sections into tables that give the addresses and the names back.
-/

namespace Ijvm

open Transcript Program SymbolReader

section Reading

variable {grant : Nat → Bool}

/-- Entries that fit into memory are all read. -/
theorem readSymbolsFuel_symbols (plenty : ∀ k, grant k = true) {fuel : Nat} {p : Parsing}
    {l m : List Symbol} {rest : List Byte} (file : p.file = symbolBytes m ++ rest)
    (block : p.block = .table l) (room : (nameBytes (l ++ m)).length < 2 ^ 30)
    (small : (symbolBytes (l ++ m)).length < 2 ^ 32) (enough : p.file.length < fuel) :
    ∃ clock, (readSymbolsFuel fuel (symbolBytes (l ++ m)).length (.behind l)).run grant p =
      .done true { file := rest, block := .table (l ++ m), clock } [] := by
  induction m generalizing fuel p l with
  | nil =>
      obtain ⟨fuel, rfl⟩ := Nat.exists_eq_succ_of_ne_zero (n := fuel) (by omega)
      obtain ⟨_, _, clock⟩ := p
      dsimp only at file block
      subst file block
      rw [List.append_nil] at small ⊢
      rw [readSymbolsFuel, if_neg (by rw [behind_bytesRead small]; omega)]
      exact ⟨clock, rfl⟩
  | cons s m ih =>
      obtain ⟨fuel, rfl⟩ := Nat.exists_eq_succ_of_ne_zero (n := fuel) (by omega)
      have names : (nameBytes l).length + s.stored.length ≤ (nameBytes (l ++ s :: m)).length := by
        rw [nameBytes_append, List.length_append, nameBytes_cons, List.length_append]
        omega
      have entries : (symbolBytes l).length + s.bytes.length ≤
          (symbolBytes (l ++ s :: m)).length := by
        rw [symbolBytes_append, List.length_append, symbolBytes_cons, List.length_append]
        omega
      have stored := length_stored s
      have bytes := length_bytes s
      have many := length_symbolBytes_ge l
      rw [readSymbolsFuel, if_pos (by rw [behind_bytesRead (by omega)]; omega), run_bind]
      obtain ⟨r, t, run, done, fails⟩ := readSymbol_satisfies grant block (by omega)
        (by omega)
      rw [run, Outcome.andThen_done, Outcome.prepend_nil]
      rw [symbolBytes_cons, List.append_assoc] at file
      cases r with
      | none =>
          obtain ⟨taken, fail⟩ := fails rfl
          have inside := clean_shorter (file.symm.trans fail.file) fail.clean
          obtain ended | full | ⟨_, full⟩ := fail.reason plenty
          · have length := congrArg List.length (file.symm.trans fail.file)
            rw [ended, List.append_nil, List.length_append] at length
            omega
          · omega
          · rw [List.length_drop] at full
            omega
      | some z =>
          obtain ⟨s', read⟩ := done z rfl
          obtain ⟨rfl, others⟩ := Symbol.bytes_inj (file.symm.trans read.file)
          have length := congrArg List.length read.file
          rw [List.length_append] at length
          have assoc : l ++ s :: m = (l ++ [s]) ++ m := by simp
          rw [assoc] at room small ⊢
          rw [read.sizes]
          exact ih others.symm read.block room small (by omega)

/-- One list of entries starts with another one if it takes as many bytes. -/
theorem exists_append_of_symbolBytes {l m : List Symbol} {rest rest' : List Byte}
    (same : symbolBytes l ++ rest = symbolBytes m ++ rest')
    (long : (symbolBytes l).length ≤ (symbolBytes m).length) : ∃ m', m = l ++ m' := by
  induction l generalizing m with
  | nil => exact ⟨m, rfl⟩
  | cons s l ih =>
      cases m with
      | nil =>
          rw [symbolBytes_cons, List.length_append, length_bytes] at long
          simp at long
      | cons s' m =>
          simp only [symbolBytes_cons, List.append_assoc] at same
          obtain ⟨rfl, others⟩ := Symbol.bytes_inj same
          rw [symbolBytes_cons, symbolBytes_cons, List.length_append, List.length_append] at long
          obtain ⟨m', rfl⟩ := ih others (by omega)
          exact ⟨m', rfl⟩

end Reading

/-- A section of symbols in the file. -/
structure SymbolSection where
  origin : List Byte
  symbols : List Symbol
  origin_length : origin.length = 4
  fits : (symbolBytes symbols).length < 2 ^ 32

namespace SymbolSection

/-- The size of the entries. -/
def size (b : SymbolSection) : Word := BitVec.ofNat 32 (symbolBytes b.symbols).length

/-- The section in the order of the file. -/
def bytes (b : SymbolSection) : List Byte :=
  b.origin ++ bigEndian b.size ++ symbolBytes b.symbols

/-- The names, each with its NUL, fit into memory at four bytes for a character. -/
def NamesFit (b : SymbolSection) : Prop := (nameBytes b.symbols).length < 2 ^ 30

theorem toNat_size (b : SymbolSection) : b.size.toNat = (symbolBytes b.symbols).length := by
  rw [size, BitVec.toNat_ofNat, Nat.mod_eq_of_lt b.fits]

end SymbolSection

section Block

variable {grant : Nat → Bool} {b : SymbolSection} {rest : List Byte} {clock : Nat}

theorem readSymbolBlock_section (plenty : ∀ k, grant k = true) (names : b.NamesFit)
    (rest : List Byte) (clock : Nat) :
    ∃ clock', readSymbolBlock.run grant { file := b.bytes ++ rest, block := .init, clock } =
      .done true { file := rest, block := .table b.symbols, clock := clock' } [] := by
  rw [SymbolSection.bytes, List.append_assoc, readSymbolBlock_run b.origin_length, b.toNat_size]
  exact readSymbolsFuel_symbols (l := []) plenty rfl rfl names b.fits (Nat.lt_succ_self _)

/-- Names that do not fit are refused, although there is memory. -/
theorem readSymbolBlock_full (grant : Nat → Bool) (names : ¬ b.NamesFit) (rest : List Byte)
    (clock : Nat) :
    ∃ t, readSymbolBlock.run grant { file := b.bytes ++ rest, block := .init, clock } =
      .done false t [] := by
  rw [SymbolSection.bytes, List.append_assoc, readSymbolBlock_run b.origin_length, b.toNat_size]
  obtain ⟨ok, t, taken, run, file, whole⟩ := readSymbolsFuel_returns grant _ _
    (p := { file := symbolBytes b.symbols ++ rest, block := .table [], clock }) (l := [])
    rfl (by simp) (by simp) (Nat.lt_succ_self _)
  cases ok with
  | false => exact ⟨t, run⟩
  | true =>
      obtain ⟨m, rfl, reached, fit⟩ := whole rfl
      obtain ⟨m', rfl⟩ := exists_append_of_symbolBytes file reached
      refine (names ?_).elim
      rw [List.nil_append, nameBytes_append, List.length_append] at fit
      exact Nat.lt_of_le_of_lt (Nat.le_add_right _ _) fit

end Block

section Binary

variable {grant : Nat → Bool} {l : SymbolLoader}

/-- What has been run on the symbols of the functions changes nothing else. -/
theorem onFuncLabel_done {α : Type} {m : SymbolReader α} {a : α} {p : Parsing}
    (run : m.run grant { file := l.file, block := l.debugData.funcLabel, clock := l.clock } =
      .done a p []) :
    (onFuncLabel m).run grant l = .done a { l with
      file := p.file
      debugData := { l.debugData with funcLabel := p.block }
      clock := p.clock } [] := by
  simp only [onFuncLabel, zoom, id_eq, run]
  rfl

theorem onSecLabel_done {α : Type} {m : SymbolReader α} {a : α} {p : Parsing}
    (run : m.run grant { file := l.file, block := l.debugData.secLabel, clock := l.clock } =
      .done a p []) :
    (onSecLabel m).run grant l = .done a { l with
      file := p.file
      debugData := { l.debugData with secLabel := p.block }
      clock := p.clock } [] := by
  simp only [onSecLabel, zoom, id_eq, run]
  rfl

theorem skipBlock_run {p : Parsing} {origin body rest : List Byte} {size : Word}
    (fours : origin.length = 4) (length : body.length = size.toNat)
    (file : p.file = origin ++ bigEndian size ++ (body ++ rest)) :
    skipBlock.run grant p = .done true { p with file := rest } [] := by
  rw [skipBlock, run_bind, getBlockSize_run fours file, Outcome.andThen_done, Outcome.prepend_nil,
    if_neg (by omega)]
  simp only [seek, run_bind, run_modify, run_pure, Outcome.andThen_done, Outcome.prepend_nil,
    Int.toNat_natCast]
  rw [← length, List.drop_left]

/-- The symbol loader skips exactly the binary. -/
theorem skipBinary_run (b : Binary) {rest : List Byte} (file : l.file = b.bytes ++ rest) :
    skipBinary.run grant l = .done true { l with file := rest } [] := by
  have parts : l.file.drop 4 = b.constOrigin ++ bigEndian b.constSize ++ (b.constBytes ++
      (b.textOrigin ++ bigEndian b.textSize ++ (b.code ++ rest))) := by
    rw [file, Binary.bytes]
    simp only [List.append_assoc]
    rfl
  have magic : (onFuncLabel (seek 4)).run grant l =
      .done () { l with file := l.file.drop 4 } [] := rfl
  rw [skipBinary, run_bind, magic, Outcome.andThen_done, Outcome.prepend_nil, run_bind,
    onFuncLabel_done (skipBlock_run b.constOrigin_length b.constBytes_length parts),
    Outcome.andThen_done, Outcome.prepend_nil, run_bind,
    onFuncLabel_done (skipBlock_run b.textOrigin_length b.code_length rfl), Outcome.andThen_done,
    Outcome.prepend_nil]
  rfl

end Binary

/-- The tables list these symbols: `get_func_name` and `get_section_name` give the names. -/
structure DebugData.Lists (d : DebugData) (funcs secs : List Symbol) : Prop where
  funcNum : d.funcLabel.num = funcs.length
  funcAddrs : d.funcLabel.addr = funcs.map Symbol.addr
  funcNames : ∀ (i : Nat) (h : i < funcs.length), getFuncName d i = (funcs.get ⟨i, h⟩).name
  secNum : d.secLabel.num = secs.length
  secAddrs : d.secLabel.addr = secs.map Symbol.addr
  secNames : ∀ (i : Nat) (h : i < secs.length), getSectionName d i = (secs.get ⟨i, h⟩).name

section Tables

/-- A name ends at its NUL. -/
theorem takeWhile_stored (s : Symbol) (rest : List Byte) :
    (s.stored ++ rest).takeWhile (fun c => c != 0) = s.name := by
  rw [Symbol.stored, List.append_assoc, List.takeWhile_append_of_pos]
  · simp
  · intro c member
    have other : c ≠ 0 := fun nul => s.noNul (nul ▸ member)
    simpa using other

theorem getD_nameStarts {l : List Symbol} {i : Nat} (h : i < l.length) :
    (nameStarts l).getD i 0 = (nameBytes (l.take i)).length := by
  simp [nameStarts, List.getD, h]

/-- The memory of the names, read from where the `i`-th one starts. -/
theorem strDup_table {l : List Symbol} {i : Nat} (h : i < l.length) :
    strDup (SymbolBlock.table l).names ((SymbolBlock.table l).namesStart.getD i 0) =
      (l.get ⟨i, h⟩).name := by
  have split : nameBytes l = nameBytes (l.take i) ++ ((l.get ⟨i, h⟩).stored ++
      nameBytes (l.drop (i + 1))) := by
    rw [← nameBytes_cons, ← nameBytes_append]
    simp
  rw [strDup, SymbolBlock.table, getD_nameStarts h]
  dsimp only
  rw [split, List.drop_left, takeWhile_stored]

theorem lists_table (funcs secs : List Symbol) :
    DebugData.Lists { funcLabel := .table funcs, secLabel := .table secs } funcs secs where
  funcNum := rfl
  funcAddrs := rfl
  funcNames _ h := strDup_table h
  secNum := rfl
  secAddrs := rfl
  secNames _ h := strDup_table h

end Tables

section Loading

variable {grant : Nat → Bool} {b : Binary} {clock : Nat} {funcs secs : SymbolSection}

/-- Both sections are read where the binary ends. -/
theorem loadDebugData_run (plenty : ∀ k, grant k = true) (funcNames : funcs.NamesFit)
    (secNames : secs.NamesFit) (trailing : List Byte) (clock : Nat) :
    ∃ clock',
      (loadDebugData (some (b.bytes ++ (funcs.bytes ++ (secs.bytes ++ trailing))))).run grant
          { file := [], debugData := .init, clock } =
        .done true
          { file := trailing
            debugData := { funcLabel := .table funcs.symbols, secLabel := .table secs.symbols }
            clock := clock' }
          [if funcs.symbols.length = 0 then .noSymbols else .symbolsLoaded] := by
  obtain ⟨clock₁, first⟩ := readSymbolBlock_section plenty funcNames (secs.bytes ++ trailing)
    clock
  obtain ⟨clock₂, second⟩ := readSymbolBlock_section plenty secNames trailing clock₁
  refine ⟨clock₂, ?_⟩
  simp only [loadDebugData, run_bind, run_modify, Outcome.andThen_done, Outcome.prepend_nil]
  rw [skipBinary_run b rfl, Outcome.andThen_done, Outcome.prepend_nil, onFuncLabel_done first,
    Outcome.andThen_done, Outcome.prepend_nil, onSecLabel_done second, Outcome.andThen_done,
    Outcome.prepend_nil, if_neg (by simp)]
  rfl

/-- Where the file ends behind the code, there are no symbols. -/
theorem loadDebugData_none :
    (loadDebugData (some b.bytes)).run grant { file := [], debugData := .init, clock } =
      .done true { file := [], debugData := .init, clock } [.noSymbols] := by
  have whole : b.bytes = b.bytes ++ [] := (List.append_nil _).symm
  have short : ([] : List Byte).length < 8 := by decide
  simp only [loadDebugData, run_bind, run_modify, Outcome.andThen_done, Outcome.prepend_nil]
  rw [skipBinary_run b whole, Outcome.andThen_done, Outcome.prepend_nil,
    onFuncLabel_done (readSymbolBlock_short short), Outcome.andThen_done,
    Outcome.prepend_nil, onSecLabel_done (readSymbolBlock_short short),
    Outcome.andThen_done, Outcome.prepend_nil]
  rfl

/-- Section names that do not fit into memory make the whole load fail. -/
theorem loadDebugData_full (plenty : ∀ k, grant k = true) (funcNames : funcs.NamesFit)
    (secNames : ¬ secs.NamesFit) :
    ∃ t, (loadDebugData (some (b.bytes ++ (funcs.bytes ++ secs.bytes)))).run grant
      { file := [], debugData := .init, clock } = .done false t [] := by
  obtain ⟨clock₁, first⟩ := readSymbolBlock_section plenty funcNames secs.bytes clock
  obtain ⟨t, second⟩ := readSymbolBlock_full grant secNames [] clock₁
  rw [List.append_nil] at second
  refine ⟨{ file := t.file, debugData := .init, clock := t.clock }, ?_⟩
  simp only [loadDebugData, run_bind, run_modify, Outcome.andThen_done, Outcome.prepend_nil]
  rw [skipBinary_run b rfl, Outcome.andThen_done, Outcome.prepend_nil, onFuncLabel_done first,
    Outcome.andThen_done, Outcome.prepend_nil, onSecLabel_done second, Outcome.andThen_done,
    Outcome.prepend_nil]
  rfl

/-- The loader of the binary and the symbol loader agree on where the binary ends, and the
tables give back the symbols of the two sections behind it. -/
theorem loadDebugData_roundTrip {env : Env} (granted : ∀ n, env.alloc n = true)
    (plenty : ∀ k, grant k = true) (s : State) (b : Binary) (funcs secs : SymbolSection)
    (funcNames : funcs.NamesFit) (secNames : secs.NamesFit) (trailing : List Byte) (clock : Nat) :
    (loadBinRest (some (b.bytes ++ (funcs.bytes ++ (secs.bytes ++ trailing))))).run env s =
        .done (some (funcs.bytes ++ (secs.bytes ++ trailing)))
          { s with gCpu := b.loaded env s.gCpu, clock := s.clock + 2 } [] ∧
      skipBinary.run grant
          { file := b.bytes ++ (funcs.bytes ++ (secs.bytes ++ trailing))
            debugData := .init, clock } =
        .done true
          { file := funcs.bytes ++ (secs.bytes ++ trailing), debugData := .init, clock } [] ∧
      (∃ t notice,
        (loadDebugData (some (b.bytes ++ (funcs.bytes ++ (secs.bytes ++ trailing))))).run grant
            { file := [], debugData := .init, clock } = .done true t [notice] ∧
          t.debugData.Lists funcs.symbols secs.symbols) ∧
      ∃ t notice,
        (loadDebugData (some b.bytes)).run grant { file := [], debugData := .init, clock } =
            .done true t [notice] ∧
          t.debugData.Lists [] [] := by
  refine ⟨loadBinRest_run granted b _, skipBinary_run b rfl, ?_, ?_⟩
  · obtain ⟨clock', run⟩ := loadDebugData_run (b := b) plenty funcNames secNames trailing clock
    exact ⟨_, _, run, lists_table _ _⟩
  · exact ⟨_, _, loadDebugData_none, lists_table [] []⟩

/-- A binary without constants and without code. -/
def emptyBinary : Binary where
  constOrigin := [0, 0, 0, 0]
  constSize := 0
  constBytes := []
  textOrigin := [0, 0, 0, 0]
  textSize := 0
  code := []
  constOrigin_length := rfl
  constSize_whole := by decide
  constBytes_length := rfl
  textOrigin_length := rfl
  code_length := rfl

/-- So many names of one letter. -/
def oneLetter (n : Nat) : List Symbol := List.replicate n ⟨0, [65], by decide⟩

theorem length_symbolBytes_oneLetter (n : Nat) : (symbolBytes (oneLetter n)).length = n * 6 := by
  simp [symbolBytes, oneLetter]

theorem length_nameBytes_oneLetter (n : Nat) : (nameBytes (oneLetter n)).length = n * 2 := by
  simp [nameBytes, oneLetter]

theorem length_names_oneLetter (n : Nat) : ((oneLetter n).flatMap Symbol.name).length = n := by
  simp [oneLetter]

/-- A section of at most 2^29 such names. -/
def oneLetterSection (n : Nat) (few : n ≤ 2 ^ 29) : SymbolSection where
  origin := [0, 0, 0, 0]
  symbols := oneLetter n
  origin_length := rfl
  fits := by
    rw [length_symbolBytes_oneLetter]
    omega

theorem oneLetterSection_namesFit_iff {n : Nat} (few : n ≤ 2 ^ 29) :
    (oneLetterSection n few).NamesFit ↔ n < 2 ^ 29 := by
  rw [SymbolSection.NamesFit, oneLetterSection, length_nameBytes_oneLetter]
  omega

theorem loadDebugData_roundTrip_two :
    (loadBinRest (some (emptyBinary.bytes ++ ((oneLetterSection 1 (by decide)).bytes ++
        ((oneLetterSection 1 (by decide)).bytes ++ []))))).run Env.quiet State.fresh =
        .done (some ((oneLetterSection 1 (by decide)).bytes ++
            ((oneLetterSection 1 (by decide)).bytes ++ [])))
          { State.fresh with
            gCpu := emptyBinary.loaded Env.quiet State.fresh.gCpu
            clock := State.fresh.clock + 2 } [] ∧
      skipBinary.run (fun _ => true)
          { file := emptyBinary.bytes ++ ((oneLetterSection 1 (by decide)).bytes ++
              ((oneLetterSection 1 (by decide)).bytes ++ []))
            debugData := .init, clock := 0 } =
        .done true
          { file := (oneLetterSection 1 (by decide)).bytes ++
              ((oneLetterSection 1 (by decide)).bytes ++ [])
            debugData := .init, clock := 0 } [] ∧
      (∃ t notice,
        (loadDebugData (some (emptyBinary.bytes ++ ((oneLetterSection 1 (by decide)).bytes ++
            ((oneLetterSection 1 (by decide)).bytes ++ []))))).run (fun _ => true)
            { file := [], debugData := .init, clock := 0 } = .done true t [notice] ∧
          t.debugData.Lists (oneLetter 1) (oneLetter 1)) ∧
      ∃ t notice,
        (loadDebugData (some emptyBinary.bytes)).run (fun _ => true)
            { file := [], debugData := .init, clock := 0 } = .done true t [notice] ∧
          t.debugData.Lists [] [] :=
  loadDebugData_roundTrip (fun _ => rfl) (fun _ => rfl) State.fresh emptyBinary
    (oneLetterSection 1 (by decide)) (oneLetterSection 1 (by decide))
    ((oneLetterSection_namesFit_iff _).mpr (by decide))
    ((oneLetterSection_namesFit_iff _).mpr (by decide)) [] 0

/-- One symbol is not loaded if the allocator refuses; and if it does not, 2^29 names are
not loaded although they have 2^29 letters only, since their NULs are stored as well. -/
theorem loadDebugData_refuses :
    (∃ t, (loadDebugData (some (emptyBinary.bytes ++ ((oneLetterSection 1 (by decide)).bytes ++
        (oneLetterSection 0 (by decide)).bytes)))).run (fun _ => false)
        { file := [], debugData := .init, clock := 0 } = .done false t []) ∧
      (((oneLetter (2 ^ 29)).flatMap Symbol.name).length < 2 ^ 30 ∧
        ∃ t, (loadDebugData (some (emptyBinary.bytes ++ ((oneLetterSection 0 (by decide)).bytes ++
          (oneLetterSection (2 ^ 29) (by decide)).bytes)))).run (fun _ => true)
          { file := [], debugData := .init, clock := 0 } = .done false t []) := by
  refine ⟨⟨_, rfl⟩, ?_, ?_⟩
  · rw [length_names_oneLetter]
    decide
  · apply loadDebugData_full
    · exact fun _ => rfl
    · exact (oneLetterSection_namesFit_iff _).mpr (by decide)
    · intro fits
      exact absurd ((oneLetterSection_namesFit_iff _).mp fits) (Nat.lt_irrefl _)

end Loading

end Ijvm
