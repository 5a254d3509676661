import Ijvm.Symbols.Reading

/-!
# Symbol blocks that are not well formed

The loop over the symbols compares the bytes read with the size of the block only between
two entries. Inside an entry nothing stops at the end of the block, and at the end of the
file only an address that cannot be read makes the loop fail. `EndsInside` describes the
blocks that the parser cannot leave, and `readsSafely_iff` shows that no others are safe.
-/

namespace Ijvm

open Transcript Program SymbolReader

section Loop

variable {grant : Nat → Bool}

/-- The loop over the symbols ends on any file. It succeeds behind whole entries only, and
then these are no fewer bytes than the block has, and their names fit into memory. -/
theorem readSymbolsFuel_returns (grant : Nat → Bool) (fuel size : Nat) {p : Parsing}
    {l : List Symbol}
    (block : p.block = .table l) (few : l.length < 2 ^ 30) (room : (nameBytes l).length < 2 ^ 30)
    (enough : p.file.length < fuel) :
    ∃ ok t taken, (readSymbolsFuel fuel size (.behind l)).run grant p = .done ok t [] ∧
      p.file = taken ++ t.file ∧
      (ok = true → ∃ m, taken = symbolBytes m ∧ size ≤ (symbolBytes (l ++ m)).length ∧
        (nameBytes (l ++ m)).length < 2 ^ 30) := by
  induction fuel generalizing p l with
  | zero => omega
  | succ fuel ih =>
      rw [readSymbolsFuel]
      by_cases more : ((Sizes.behind l).bytesRead : Int) < size
      · rw [if_pos more, run_bind]
        obtain ⟨r, t, run, done, fails⟩ := readSymbol_satisfies grant block few room
        rw [run, Outcome.andThen_done, Outcome.prepend_nil]
        cases r with
        | none =>
            obtain ⟨taken, fail⟩ := fails rfl
            exact ⟨false, t, taken, rfl, fail.file, by simp⟩
        | some z =>
            obtain ⟨s, read⟩ := done z rfl
            have shorter := congrArg List.length read.file
            rw [List.length_append, length_bytes] at shorter
            obtain ⟨ok, u, taken, run, file, whole⟩ := ih read.block read.few read.room (by omega)
            rw [← read.sizes] at run
            refine ⟨ok, u, s.bytes ++ taken, run, ?_, ?_⟩
            · rw [read.file, file, List.append_assoc]
            · intro success
              obtain ⟨m, rfl, reached, fits⟩ := whole success
              rw [List.append_assoc] at reached fits
              exact ⟨s :: m, rfl, reached, fits⟩
      · rw [if_neg more]
        have wrapped : (Sizes.behind l).bytesRead ≤ (symbolBytes l).length := Nat.mod_le _ _
        refine ⟨true, p, [], rfl, rfl, fun _ => ⟨[], rfl, ?_⟩⟩
        rw [List.append_nil]
        exact ⟨by omega, room⟩

end Loop

/-- The parser cannot leave these `left` bytes of a block. `stored` characters of names are
in memory already. -/
inductive EndsInside : (left stored : Nat) → (body : List Byte) → Prop where
  /-- The entries end where the block ends. -/
  | whole {stored : Nat} {rest : List Byte} : EndsInside 0 stored rest
  /-- The memory for the names is full inside the block. -/
  | full {left stored : Nat} {taken rest : List Byte} (address : 4 ≤ taken.length)
      (clean : 0 ∉ taken.drop 4) (full : stored + (taken.drop 4).length + 1 = 2 ^ 30)
      (inside : taken.length ≤ left) : EndsInside left stored (taken ++ rest)
  /-- There is an entry in the block and in memory. -/
  | symbol {left stored : Nat} {rest : List Byte} (s : Symbol)
      (room : stored + s.stored.length < 2 ^ 30)
      (others : EndsInside left (stored + s.stored.length) rest) :
      EndsInside (s.bytes.length + left) stored (s.bytes ++ rest)

section Inside

variable {grant : Nat → Bool} {l : List Symbol} {p t : Parsing} {s : Symbol}
  {rest : List Byte}

/-- What has no NUL behind the address is shorter than an entry. -/
theorem clean_shorter {taken rest' : List Byte} (same : s.bytes ++ rest = taken ++ rest')
    (clean : 0 ∉ taken.drop 4) : taken.length < s.bytes.length := by
  by_contra long
  have starts : s.bytes <+: taken :=
    List.prefix_of_prefix_length_le ⟨rest, same⟩ ⟨rest', rfl⟩ (by omega)
  obtain ⟨more, rfl⟩ := starts
  apply clean
  rw [Symbol.bytes, List.append_assoc, drop_bigEndian]
  simp [Symbol.stored]

/-- Where the memory for the names gets full, no entry can be read. -/
theorem SymbolRead.not_full {z : Sizes} {taken : List Byte} (read : SymbolRead l p s t z)
    (file : p.file = taken ++ rest) (clean : 0 ∉ taken.drop 4)
    (full : (nameBytes l).length + (taken.drop 4).length + 1 = 2 ^ 30) : False := by
  have shorter := clean_shorter (read.file.symm.trans file) clean
  have room := read.room
  rw [nameBytes_concat, List.length_append, length_stored] at room
  rw [List.length_drop] at full
  rw [length_bytes] at shorter
  omega

/-- Where the memory for the names gets full, a turn stops there at the latest. -/
theorem SymbolFails.not_behind {taken taken' : List Byte}
    (fail : SymbolFails grant p.file l taken' t) (address : 4 ≤ taken.length)
    (full : (nameBytes l).length + (taken.drop 4).length + 1 = 2 ^ 30) :
    taken'.length ≤ taken.length := by
  have room := fail.room
  rw [List.length_drop] at full room
  omega

theorem length_symbolBytes_concat (l : List Symbol) (s : Symbol) :
    (symbolBytes (l ++ [s])).length = (symbolBytes l).length + s.bytes.length := by
  rw [symbolBytes_concat, List.length_append]

theorem length_nameBytes_concat (l : List Symbol) (s : Symbol) :
    (nameBytes (l ++ [s])).length = (nameBytes l).length + s.stored.length := by
  rw [nameBytes_concat, List.length_append]

/-- While the entries read fill the block only in part, the loop goes on. -/
theorem behind_bytesRead {size : Nat} (below : (symbolBytes l).length < 2 ^ 32) :
    (((Sizes.behind l).bytesRead : Int) < size) ↔ (symbolBytes l).length < size := by
  rw [show (Sizes.behind l).bytesRead = (symbolBytes l).length from Nat.mod_eq_of_lt below]
  omega

/-- From inside such a block, the parser does not leave it. -/
theorem EndsInside.stays (grant : Nat → Bool) (fuel : Nat) {left stored size : Nat}
    {file : List Byte} (ends : EndsInside left stored file) (here : p.file = file)
    (block : p.block = .table l) (few : l.length < 2 ^ 30)
    (room : (nameBytes l).length < 2 ^ 30) (names : stored = (nameBytes l).length)
    (tiled : (symbolBytes l).length + left = size) (small : size < 2 ^ 32)
    (enough : p.file.length < fuel) :
    ∃ ok t, (readSymbolsFuel fuel size (.behind l)).run grant p = .done ok t [] ∧
      p.file.length ≤ t.file.length + left := by
  induction ends generalizing fuel p l with
  | whole =>
      obtain ⟨fuel, rfl⟩ := Nat.exists_eq_succ_of_ne_zero (n := fuel) (by omega)
      rw [readSymbolsFuel, if_neg (by rw [behind_bytesRead (by omega)]; omega)]
      exact ⟨true, p, rfl, by omega⟩
  | @full left stored taken rest address clean full inside =>
      obtain ⟨fuel, rfl⟩ := Nat.exists_eq_succ_of_ne_zero (n := fuel) (by omega)
      rw [readSymbolsFuel, if_pos (by rw [behind_bytesRead (by omega)]; omega), run_bind]
      obtain ⟨r, t, run, done, fails⟩ := readSymbol_satisfies grant block few room
      rw [run, Outcome.andThen_done, Outcome.prepend_nil]
      subst names
      cases r with
      | some z =>
          obtain ⟨s, read⟩ := done z rfl
          exact (read.not_full here clean full).elim
      | none =>
          obtain ⟨taken', fail⟩ := fails rfl
          have before := fail.not_behind address full
          have length := congrArg List.length fail.file
          rw [List.length_append] at length
          exact ⟨false, t, rfl, by omega⟩
  | @symbol left stored rest s fits others ih =>
      obtain ⟨fuel, rfl⟩ := Nat.exists_eq_succ_of_ne_zero (n := fuel) (by omega)
      have entry := length_bytes s
      rw [readSymbolsFuel, if_pos (by rw [behind_bytesRead (by omega)]; omega), run_bind]
      obtain ⟨r, t, run, done, fails⟩ := readSymbol_satisfies grant block few room
      rw [run, Outcome.andThen_done, Outcome.prepend_nil]
      cases r with
      | none =>
          obtain ⟨taken, fail⟩ := fails rfl
          have inside := clean_shorter (here.symm.trans fail.file) fail.clean
          have length := congrArg List.length fail.file
          rw [List.length_append] at length
          exact ⟨false, t, rfl, by omega⟩
      | some z =>
          obtain ⟨s', read⟩ := done z rfl
          obtain ⟨rfl, rest'⟩ := Symbol.bytes_inj (here.symm.trans read.file)
          have length := congrArg List.length read.file
          rw [List.length_append] at length
          obtain ⟨ok, u, run, bound⟩ := ih fuel rest'.symm read.block read.few
            read.room (by rw [names, length_nameBytes_concat])
            (by rw [length_symbolBytes_concat]; omega) (by omega)
          rw [← read.sizes] at run
          exact ⟨ok, u, run, by omega⟩

/-- If memory is never refused, a parser that stays in a block of which the file goes on
has found one it cannot leave. -/
theorem EndsInside.of_stays {fuel left size : Nat} {ok : Bool} (plenty : ∀ k, grant k = true)
    (block : p.block = .table l) (few : l.length < 2 ^ 30) (room : (nameBytes l).length < 2 ^ 30)
    (tiled : (symbolBytes l).length + left = size) (small : size < 2 ^ 32)
    (enough : p.file.length < fuel)
    (run : (readSymbolsFuel fuel size (.behind l)).run grant p = .done ok t [])
    (stays : p.file.length ≤ t.file.length + left) (long : left < p.file.length) :
    EndsInside left (nameBytes l).length p.file := by
  induction fuel generalizing p l left with
  | zero => omega
  | succ fuel ih =>
      rw [readSymbolsFuel] at run
      cases Nat.eq_zero_or_pos left with
      | inl none =>
          rw [none]
          exact .whole
      | inr some =>
          rw [if_pos (by rw [behind_bytesRead (by omega)]; omega), run_bind] at run
          obtain ⟨r, u, turn, done, fails⟩ := readSymbol_satisfies grant block few room
          rw [turn, Outcome.andThen_done, Outcome.prepend_nil] at run
          cases r with
          | none =>
              obtain ⟨taken, fail⟩ := fails rfl
              have length := congrArg List.length fail.file
              rw [List.length_append] at length
              obtain rfl : u = t := by
                injection run
              obtain ended | many | ⟨address, full⟩ := fail.reason plenty
              · rw [ended] at stays
                simp only [List.length_nil] at stays
                omega
              · have := length_symbolBytes_ge l
                omega
              · rw [fail.file]
                exact .full address fail.clean full (by omega)
          | some z =>
              obtain ⟨s, read⟩ := done z rfl
              have length := congrArg List.length read.file
              rw [List.length_append] at length
              have entry := length_bytes s
              obtain ⟨ok', t', taken, others, file, _⟩ := readSymbolsFuel_returns grant fuel size
                read.block read.few read.room (by omega)
              rw [← read.sizes, run] at others
              obtain ⟨_, rfl⟩ : ok = ok' ∧ t = t' := by
                injection others with value state
                exact ⟨value, state⟩
              have consumed := congrArg List.length file
              rw [List.length_append] at consumed
              rw [read.sizes] at run
              obtain ⟨left, rfl⟩ := Nat.exists_eq_add_of_le
                (show s.bytes.length ≤ left by omega)
              have others := ih read.block read.few read.room
                (show (symbolBytes (l ++ [s])).length + left = size by
                  rw [length_symbolBytes_concat]; omega) (by omega) run (by omega) (by omega)
              rw [length_nameBytes_concat] at others
              rw [read.file]
              apply EndsInside.symbol s _ others
              rw [← length_nameBytes_concat]
              exact read.room

end Inside

/-- The size that the block at this position declares. -/
def declaredSize (file : List Byte) : Nat :=
  match readWord (file.drop 4) with
  | some (size, _) => (swapUint32 size).toNat
  | none => 0

/-- A sequence of entries with their size in front, or nothing at all. -/
def WellFormedBlock (file : List Byte) : Prop :=
  file = [] ∨ ∃ origin size symbols rest, origin.length = 4 ∧
    (symbolBytes symbols).length = BitVec.toNat size ∧
    file = origin ++ bigEndian size ++ symbolBytes symbols ++ rest

/-- Whatever the allocator does, the parser stops inside the block, and it accepts only a
well-formed one. -/
def ReadsSafely (file : List Byte) : Prop :=
  ∀ grant clock, ∃ ok t,
    readSymbolBlock.run grant { file, block := .init, clock } = .done ok t [] ∧
      file.length ≤ t.file.length + (8 + declaredSize file) ∧
      (ok = true → WellFormedBlock file)

/-- There is no block, or there is a whole header, and the file ends inside the block or
the block keeps the parser inside. -/
def SymbolBlockInside (file : List Byte) : Prop :=
  file = [] ∨ 8 ≤ file.length ∧
    (file.length ≤ 8 + declaredSize file ∨ EndsInside (declaredSize file) 0 (file.drop 8))

section Block

variable {grant : Nat → Bool} {origin body : List Byte} {size : Word}

theorem declaredSize_header (fours : origin.length = 4) :
    declaredSize (origin ++ bigEndian size ++ body) = size.toNat := by
  obtain ⟨w, read, rfl⟩ := readWord_bigEndian size body
  rw [declaredSize, List.append_assoc, ← fours, List.drop_left, read]

/-- Behind a header, the loop over the symbols does all the work. -/
theorem readSymbolBlock_run {clock : Nat} (fours : origin.length = 4) :
    readSymbolBlock.run grant
        { file := origin ++ bigEndian size ++ body, block := .init, clock } =
      (readSymbolsFuel (body.length + 1) size.toNat (.behind [])).run grant
        { file := body, block := .table [], clock } := by
  rw [readSymbolBlock, run_bind, getBlockSize_run fours rfl, Outcome.andThen_done,
    Outcome.prepend_nil]
  by_cases empty : (size.toNat : Int) = 0
  · rw [if_pos empty, readSymbolsFuel, if_neg (by rw [behind_bytesRead (by simp)]; omega)]
    rfl
  · rw [if_neg empty, run_bind, run_get, Outcome.andThen_done, Outcome.prepend_nil]
    rfl

/-- Without a whole header, the parser succeeds. -/
theorem readSymbolBlock_short {file : List Byte} {clock : Nat} (short : file.length < 8) :
    readSymbolBlock.run grant { file, block := .init, clock } =
      .done true { file := [], block := .init, clock } [] := by
  rw [readSymbolBlock, run_bind, getBlockSize_short short, Outcome.andThen_done,
    Outcome.prepend_nil]
  rfl

theorem not_wellFormedBlock_of_short {file : List Byte} (short : file.length < 8)
    (some : file ≠ []) : ¬ WellFormedBlock file := by
  rintro (none | ⟨origin, size, symbols, rest, fours, _, rfl⟩)
  · exact some none
  · simp only [List.length_append, length_bigEndian] at short
    omega

/-- The parser is safe on a file exactly if the block keeps it inside. -/
theorem readsSafely_iff (file : List Byte) : ReadsSafely file ↔ SymbolBlockInside file := by
  by_cases long : 8 ≤ file.length
  · obtain ⟨origin, size, body, fours, rfl⟩ := exists_header long
    have drop : (origin ++ bigEndian size ++ body).drop 8 = body := by
      rw [← show (origin ++ bigEndian size).length = 8 by simp [fours], List.drop_left]
    have length : (origin ++ bigEndian size ++ body).length = 8 + body.length := by
      rw [List.length_append, List.length_append, length_bigEndian, fours]
    have small := size.isLt
    constructor
    · intro safe
      refine Or.inr ⟨long, ?_⟩
      obtain ⟨ok, t, run, stays, _⟩ := safe (fun _ => true) 0
      rw [readSymbolBlock_run fours] at run
      rw [declaredSize_header fours, length] at stays
      rw [declaredSize_header fours, drop, length]
      by_cases inside : body.length ≤ size.toNat
      · exact Or.inl (by omega)
      · refine Or.inr ?_
        exact EndsInside.of_stays (p := { file := body, block := .table [], clock := 0 }) (l := [])
          (fun _ => rfl) rfl (by simp) (by simp) (by simp) small
          (Nat.lt_succ_self _) run (by dsimp only; omega) (by dsimp only; omega)
    · rintro (none | ⟨_, inside⟩) grant clock
      · rw [none] at long
        simp at long
      rw [readSymbolBlock_run fours, declaredSize_header fours, length]
      rw [declaredSize_header fours, drop, length] at inside
      obtain ⟨ok, t, taken, run, split, whole⟩ := readSymbolsFuel_returns grant
        (body.length + 1) size.toNat (p := { file := body, block := .table [], clock }) (l := [])
        rfl (by simp) (by simp) (Nat.lt_succ_self _)
      dsimp only at split
      have consumed := congrArg List.length split
      rw [List.length_append] at consumed
      have stays : body.length ≤ t.file.length + size.toNat := by
        obtain ended | ends := inside
        · omega
        · obtain ⟨ok', t', run', bound⟩ := ends.stays grant (body.length + 1) (l := [])
            (p := { file := body, block := .table [], clock })
            rfl rfl (by simp) (by simp) rfl (by simp) small (Nat.lt_succ_self _)
          rw [run'] at run
          obtain rfl : t' = t := by
            injection run
          exact bound
      refine ⟨ok, t, run, by omega, ?_⟩
      intro success
      obtain ⟨m, rfl, reached, _⟩ := whole success
      rw [List.nil_append] at reached
      refine Or.inr ⟨origin, size, m, t.file, fours, by omega, ?_⟩
      rw [split, ← List.append_assoc]
  · have short : file.length < 8 := by omega
    constructor
    · intro safe
      obtain ⟨ok, t, run, _, accepts⟩ := safe (fun _ => true) 0
      rw [readSymbolBlock_short short] at run
      obtain rfl : true = ok := by
        injection run
      by_contra outside
      refine not_wellFormedBlock_of_short short ?_ (accepts rfl)
      exact fun none => outside (Or.inl none)
    · rintro (none | ⟨long', _⟩) grant clock
      · refine ⟨_, _, readSymbolBlock_short short, by dsimp only; omega, fun _ => Or.inl none⟩
      · exact absurd long' long

/-- A block of five bytes with an entry of seven. -/
def straddling : List Byte := [0, 0, 0, 0, 0, 0, 0, 5, 0, 0, 0, 0, 65, 66, 0]

/-- The parser accepts the block, and takes two bytes behind it. -/
theorem straddling_not_readsSafely : ¬ ReadsSafely straddling := by
  intro safe
  obtain ⟨ok, t, run, stays, _⟩ := safe (fun _ => true) 0
  have empty : (readSymbolBlock.run (fun _ => true)
      { file := straddling, block := .init, clock := 0 }).state.file = [] := by
    decide +kernel
  rw [run, Outcome.state_done] at empty
  rw [empty] at stays
  revert stays
  decide

end Block

end Ijvm
