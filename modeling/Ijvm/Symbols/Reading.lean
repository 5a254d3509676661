import Ijvm.Symbols.Loader

/-!
# Reading one symbol

`Symbol` is an entry of a block as the format has it. `SymbolBlock.table` gives the arrays
that hold a list of symbols, and `readSymbol_satisfies` says what one turn of the loop
makes of them on any file: it reads one whole entry, or it fails somewhere inside one.
-/

namespace Ijvm

open Transcript Program SymbolReader

/-- An address and a name without NUL. -/
structure Symbol where
  addr : Word
  name : List Byte
  noNul : 0 ∉ name

/-- The name as it is stored in memory. -/
def Symbol.stored (s : Symbol) : List Byte := s.name ++ [0]

/-- The entry in the file. -/
def Symbol.bytes (s : Symbol) : List Byte := bigEndian s.addr ++ s.stored

theorem Symbol.ext' {s s' : Symbol} (addr : s.addr = s'.addr) (name : s.name = s'.name) :
    s = s' := by
  cases s
  cases s'
  cases addr
  cases name
  rfl

/-- The entries of a block in the file. -/
def symbolBytes (l : List Symbol) : List Byte := l.flatMap Symbol.bytes

/-- The memory that the names take. -/
def nameBytes (l : List Symbol) : List Byte := l.flatMap Symbol.stored

section Bytes

variable {l m : List Symbol} {s : Symbol}

@[simp] theorem length_stored (s : Symbol) : s.stored.length = s.name.length + 1 := by
  simp [Symbol.stored]

@[simp] theorem length_bytes (s : Symbol) : s.bytes.length = s.name.length + 5 := by
  simp [Symbol.bytes]
  omega

@[simp] theorem symbolBytes_nil : symbolBytes [] = [] := rfl

@[simp] theorem nameBytes_nil : nameBytes [] = [] := rfl

theorem symbolBytes_cons (s : Symbol) (l : List Symbol) :
    symbolBytes (s :: l) = s.bytes ++ symbolBytes l := rfl

theorem nameBytes_cons (s : Symbol) (l : List Symbol) :
    nameBytes (s :: l) = s.stored ++ nameBytes l := rfl

theorem symbolBytes_append (l m : List Symbol) :
    symbolBytes (l ++ m) = symbolBytes l ++ symbolBytes m := by
  simp [symbolBytes]

theorem nameBytes_append (l m : List Symbol) :
    nameBytes (l ++ m) = nameBytes l ++ nameBytes m := by
  simp [nameBytes]

theorem symbolBytes_concat (l : List Symbol) (s : Symbol) :
    symbolBytes (l ++ [s]) = symbolBytes l ++ s.bytes := by
  simp [symbolBytes]

theorem nameBytes_concat (l : List Symbol) (s : Symbol) :
    nameBytes (l ++ [s]) = nameBytes l ++ s.stored := by
  simp [nameBytes]

/-- An entry takes five bytes at least. -/
theorem length_symbolBytes_ge (l : List Symbol) : 5 * l.length ≤ (symbolBytes l).length := by
  induction l with
  | nil => simp
  | cons s l ih =>
      rw [symbolBytes_cons, List.length_append, length_bytes, List.length_cons]
      omega

/-- Names without NUL are told apart by their ends. -/
theorem append_nul_inj {q q' rest rest' : List Byte} (clean : 0 ∉ q) (clean' : 0 ∉ q')
    (eq : q ++ 0 :: rest = q' ++ 0 :: rest') : q = q' ∧ rest = rest' := by
  induction q generalizing q' with
  | nil =>
      cases q' with
      | nil => exact ⟨rfl, List.cons.inj eq |>.2⟩
      | cons c q' =>
          obtain ⟨same, _⟩ := List.cons.inj eq
          exact absurd (same ▸ List.mem_cons_self) clean'
  | cons b q ih =>
      cases q' with
      | nil =>
          obtain ⟨same, _⟩ := List.cons.inj eq
          exact absurd (same ▸ List.mem_cons_self) clean
      | cons c q' =>
          obtain ⟨same, eq⟩ := List.cons.inj eq
          obtain ⟨names, rests⟩ := ih (fun h => clean (List.mem_cons_of_mem _ h))
            (fun h => clean' (List.mem_cons_of_mem _ h)) eq
          exact ⟨by rw [same, names], rests⟩

theorem bigEndian_injective {v w : Word} (eq : bigEndian v = bigEndian w) : v = w := by
  obtain ⟨a0, a1, a2, a3, rfl⟩ := exists_bigEndianWord v
  obtain ⟨b0, b1, b2, b3, rfl⟩ := exists_bigEndianWord w
  rw [bigEndian_bigEndianWord, bigEndian_bigEndianWord] at eq
  injection eq with h0 eq
  injection eq with h1 eq
  injection eq with h2 eq
  injection eq with h3
  rw [h0, h1, h2, h3]

/-- A file starts with one entry at most. -/
theorem Symbol.bytes_inj {s s' : Symbol} {rest rest' : List Byte}
    (eq : s.bytes ++ rest = s'.bytes ++ rest') : s = s' ∧ rest = rest' := by
  simp only [Symbol.bytes, Symbol.stored, List.append_assoc, List.singleton_append] at eq
  obtain ⟨addrs, eq⟩ := List.append_inj eq rfl
  obtain ⟨names, rests⟩ := append_nul_inj s.noNul s'.noNul eq
  exact ⟨Symbol.ext' (bigEndian_injective addrs) names, rests⟩

end Bytes

/-- Where each name starts in the memory of the names. -/
def nameStarts (l : List Symbol) : List Nat :=
  (List.range l.length).map fun i => (nameBytes (l.take i)).length

/-- The arrays that hold these symbols. -/
def SymbolBlock.table (l : List Symbol) : SymbolBlock where
  num := l.length
  addr := l.map Symbol.addr
  names := nameBytes l
  namesStart := nameStarts l

/-- The local variables of `read_symbol_block` behind these symbols. -/
def SymbolReader.Sizes.behind (l : List Symbol) : Sizes where
  addrMemSize := l.length
  namesMemSize := (nameBytes l).length
  namesStartMemSize := l.length
  bytesRead := (symbolBytes l).length % 2 ^ 32

theorem nameStarts_concat (l : List Symbol) (s : Symbol) :
    nameStarts (l ++ [s]) = nameStarts l ++ [(nameBytes l).length] := by
  simp only [nameStarts, List.length_append, List.length_singleton, List.range_succ,
    List.map_append, List.map_singleton, List.take_left]
  congr 1
  apply List.map_congr_left
  intro i member
  have below := List.mem_range.mp member
  rw [List.take_append_of_le_length (Nat.le_of_lt below)]

section Growing

variable {grant : Nat → Bool} {p : Parsing}

/-- A full array gets one more element. -/
theorem resized_succ {α : Type} (l : List α) (fresh : α) :
    resized l (l.length + 1) fresh = l ++ [fresh] := by
  rw [resized, List.take_of_length_le (Nat.le_succ _), Nat.add_sub_cancel_left]
  rfl

theorem set_last {α : Type} (l : List α) (fresh a : α) :
    (l ++ [fresh]).set l.length a = l ++ [a] := by
  simp

/-- Growing fails when the allocator refuses, or when the array would take 2^32 bytes. -/
theorem incMemorySize_run (grant : Nat → Bool) (grow : Nat → SymbolBlock → SymbolBlock) {n : Nat}
    (small : n < 2 ^ 30) :
    ∃ ok block clock, (incMemorySize grow n 4).run grant p =
        .done (ok, n + 1) { p with block := block, clock := clock } [] ∧
      (ok = true → n + 1 < 2 ^ 30 ∧ block = grow (n + 1) p.block) ∧
      (ok = false → (∀ k, grant k = true) → n + 1 = 2 ^ 30) := by
  have size : (n + 1) % 2 ^ 32 = n + 1 := Nat.mod_eq_of_lt (by omega)
  by_cases full : n + 1 = 2 ^ 30
  · refine ⟨false, p.block, p.clock, ?_, by simp, fun _ _ => full⟩
    simp only [incMemorySize, size]
    rw [if_pos (by omega)]
    rfl
  · have bytes : ¬ (n + 1) * 4 % 2 ^ 32 = 0 := by
      rw [Nat.mod_eq_of_lt (by omega)]
      omega
    refine ⟨grant p.clock, if grant p.clock then grow (n + 1) p.block else p.block, p.clock + 1,
      ?_, ?_, ?_⟩
    · simp only [incMemorySize, size]
      rw [if_neg bytes]
      rfl
    · intro granted
      exact ⟨by omega, by rw [if_pos granted]⟩
    · intro refused plenty
      rw [plenty] at refused
      contradiction

end Growing

section Names

variable {grant : Nat → Bool}

/-- What the loop over a name has done to the memory of the names. -/
structure NameRead (p : Parsing) (z : Sizes) (q : List Byte) (t : Parsing) (z' : Sizes) :
    Prop where
  file : p.file = q ++ 0 :: t.file
  clean : 0 ∉ q
  room : z.namesMemSize + q.length + 1 < 2 ^ 30
  sizes : z' = { z with
    namesMemSize := z.namesMemSize + q.length + 1
    bytesRead := (z.bytesRead + q.length + 1) % 2 ^ 32 }
  block : t.block = { p.block with names := p.block.names ++ q ++ [0] }

/-- Where the loop over a name has failed: in front of its NUL. -/
structure NameFails (grant : Nat → Bool) (file : List Byte) (stored : Nat) (q : List Byte)
    (t : Parsing) : Prop where
  file : file = q ++ t.file
  clean : 0 ∉ q
  room : stored + q.length < 2 ^ 30
  reason : (∀ k, grant k = true) → t.file = [] ∨ stored + q.length + 1 = 2 ^ 30

/-- The first character of a name, and then the others. -/
theorem NameRead.cons {p p' t : Parsing} {z z₁ z' : Sizes} {c : Byte} {q : List Byte}
    (nul : c ≠ 0) (file : p.file = c :: p'.file)
    (block : p'.block = { p.block with names := p.block.names ++ [c] })
    (sizes : z₁ = { z with
      namesMemSize := z.namesMemSize + 1
      bytesRead := (z.bytesRead + 1) % 2 ^ 32 })
    (read : NameRead p' z₁ q t z') : NameRead p z (c :: q) t z' := by
  subst sizes
  obtain ⟨file', clean, room, sizes, block'⟩ := read
  dsimp only at room sizes
  refine ⟨by rw [file, file', List.cons_append], ?_, ?_, ?_, ?_⟩
  · simpa using ⟨fun h => nul h.symm, clean⟩
  · rw [List.length_cons]
    omega
  · rw [sizes, List.length_cons]
    congr 1
    · omega
    · omega
  · rw [block', block]
    simp

theorem NameFails.cons {file : List Byte} {stored : Nat} {t : Parsing} {c : Byte} {q : List Byte}
    (nul : c ≠ 0) (fail : NameFails grant file (stored + 1) q t) :
    NameFails grant (c :: file) stored (c :: q) t := by
  obtain ⟨file', clean, room, reason⟩ := fail
  refine ⟨by rw [file', List.cons_append], ?_, ?_, ?_⟩
  · simpa using ⟨fun h => nul h.symm, clean⟩
  · rw [List.length_cons]
    omega
  · intro plenty
    rw [List.length_cons]
    obtain ended | full := reason plenty
    · exact Or.inl ended
    · exact Or.inr (by omega)

/-- At the end of the file the loop stores characters, but reads none. -/
theorem NameFails.ended {stored stored' : Nat} {t : Parsing} {q : List Byte}
    (small : stored < 2 ^ 30) (fail : NameFails grant [] stored' q t) :
    NameFails grant [] stored [] t := by
  have empty := fail.file
  simp only [List.nil_eq, List.append_eq_nil_iff] at empty
  exact ⟨by simp [empty.2], by simp, by simpa using small, fun _ => Or.inl empty.2⟩

/-- The loop over a name ends. It reads up to the next NUL; at the end of the file it
stores characters until there is no more room for them. -/
theorem readNameFuel_satisfies (grant : Nat → Bool) (fuel : Nat) {p : Parsing} {z : Sizes}
    (stored : p.block.names.length = z.namesMemSize) (small : z.namesMemSize < 2 ^ 30)
    (read : z.bytesRead < 2 ^ 32) (enough : 2 ^ 30 < fuel + z.namesMemSize) :
    ∃ r t, (readNameFuel fuel z).run grant p = .done r t [] ∧
      (∀ z', r = some z' → ∃ q, NameRead p z q t z') ∧
      (r = none → ∃ q, NameFails grant p.file z.namesMemSize q t) := by
  induction fuel generalizing p z with
  | zero => omega
  | succ fuel ih =>
      obtain ⟨ok, block, clock, inc, granted, refused⟩ := incMemorySize_run grant (p := p)
         (fun n b => { b with names := resized b.names n 0 }) small
      rw [readNameFuel, run_bind, inc, Outcome.andThen_done, Outcome.prepend_nil]
      dsimp only
      cases ok with
      | false =>
          refine ⟨none, _, rfl, by simp, fun _ => ⟨[], rfl, by simp, small, fun plenty => ?_⟩⟩
          exact Or.inr (refused rfl plenty)
      | true =>
          obtain ⟨room, rfl⟩ := granted rfl
          rw [if_neg (by simp), run_bind]
          have grown (c : Byte) : (resized p.block.names (z.namesMemSize + 1) 0).set
              (z.namesMemSize + 1 - 1) c = p.block.names ++ [c] := by
            rw [← stored, resized_succ, Nat.add_sub_cancel, set_last]
          cases file : p.file with
          | nil =>
              -- `getc` returns EOF, which is stored as a character that is no NUL.
              simp only [getChar, run_bind, run_get, run_pure, modifyBlock, run_modify,
                Outcome.andThen_done, Outcome.prepend_nil, grown]
              rw [if_pos (by decide)]
              obtain ⟨r, t, run, done, fails⟩ := ih
                (p := { file := [], block := { p.block with names := p.block.names ++ [0xFF] },
                        clock := clock })
                (z := { z with namesMemSize := z.namesMemSize + 1
                               bytesRead := (z.bytesRead + 1) % 2 ^ 32 })
                (by simp [stored]) room (Nat.mod_lt _ (by decide)) (by dsimp only; omega)
              refine ⟨r, t, run, ?_, ?_⟩
              · intro z' eq
                obtain ⟨q, read⟩ := done z' eq
                have := read.file
                simp at this
              · intro eq
                obtain ⟨q, fail⟩ := fails eq
                exact ⟨[], fail.ended small⟩
          | cons c rest =>
              simp only [getChar, run_bind, run_get, run_set, run_pure, modifyBlock,
                run_modify, Outcome.andThen_done, Outcome.prepend_nil, grown]
              by_cases nul : c = 0
              · rw [if_neg (by simpa using nul)]
                refine ⟨_, _, rfl, ?_, by simp⟩
                rintro z' ⟨⟩
                subst nul
                exact ⟨[], file, by simp, by simpa using room, by simp, by simp⟩
              · rw [if_pos nul]
                obtain ⟨r, t, run, done, fails⟩ := ih
                  (p := { file := rest, block := { p.block with names := p.block.names ++ [c] },
                          clock := clock })
                  (z := { z with namesMemSize := z.namesMemSize + 1
                                 bytesRead := (z.bytesRead + 1) % 2 ^ 32 })
                  (by simp [stored]) room (Nat.mod_lt _ (by decide)) (by dsimp only; omega)
                refine ⟨r, t, run, ?_, ?_⟩
                · intro z' eq
                  obtain ⟨q, read⟩ := done z' eq
                  exact ⟨c :: q, read.cons nul file rfl rfl⟩
                · intro eq
                  obtain ⟨q, fail⟩ := fails eq
                  exact ⟨c :: q, fail.cons nul⟩

end Names

section Symbols

variable {grant : Nat → Bool} {l : List Symbol} {p : Parsing}

/-- One turn of the loop over the symbols has read an entry. -/
structure SymbolRead (l : List Symbol) (p : Parsing) (s : Symbol) (t : Parsing) (z : Sizes) :
    Prop where
  file : p.file = s.bytes ++ t.file
  block : t.block = .table (l ++ [s])
  sizes : z = .behind (l ++ [s])
  few : (l ++ [s]).length < 2 ^ 30
  room : (nameBytes (l ++ [s])).length < 2 ^ 30

/-- One turn of the loop has failed, with `taken` read from the file: a part of an entry
that is not all of it. -/
structure SymbolFails (grant : Nat → Bool) (file : List Byte) (l : List Symbol)
    (taken : List Byte) (t : Parsing) : Prop where
  file : file = taken ++ t.file
  clean : 0 ∉ taken.drop 4
  room : (nameBytes l).length + (taken.drop 4).length < 2 ^ 30
  reason : (∀ k, grant k = true) → t.file = [] ∨ l.length + 1 = 2 ^ 30 ∨
    4 ≤ taken.length ∧ (nameBytes l).length + (taken.drop 4).length + 1 = 2 ^ 30

theorem table_concat {l : List Symbol} {addr : Word} {q : List Byte} (clean : 0 ∉ q) :
    SymbolBlock.table (l ++ [⟨addr, q, clean⟩]) =
      { num := l.length + 1
        addr := l.map Symbol.addr ++ [addr]
        names := nameBytes l ++ q ++ [0]
        namesStart := nameStarts l ++ [(nameBytes l).length] } := by
  simp [SymbolBlock.table, nameStarts_concat, nameBytes_concat, Symbol.stored]

theorem drop_bigEndian (v : Word) (q : List Byte) : (bigEndian v ++ q).drop 4 = q := rfl

/-- Nothing was read yet when an array could not grow. -/
theorem SymbolFails.at_once {file : List Byte} {t : Parsing} (same : file = t.file)
    (room : (nameBytes l).length < 2 ^ 30)
    (reason : (∀ k, grant k = true) → l.length + 1 = 2 ^ 30) :
    SymbolFails grant file l [] t :=
  ⟨same, by simp, by simpa using room, fun plenty => Or.inr (Or.inl (reason plenty))⟩

/-- Only the address was read when the starts could not grow. -/
theorem SymbolFails.at_address {rest : List Byte} {v : Word} {t : Parsing} (same : t.file = rest)
    (room : (nameBytes l).length < 2 ^ 30)
    (reason : (∀ k, grant k = true) → l.length + 1 = 2 ^ 30) :
    SymbolFails grant (bigEndian v ++ rest) l (bigEndian v) t := by
  have nothing : (bigEndian v).drop 4 = [] := rfl
  refine ⟨by rw [same], ?_, ?_, fun plenty => Or.inr (Or.inl (reason plenty))⟩
  · simp [nothing]
  · simpa [nothing] using room

/-- The address was read, and then the name failed. -/
theorem SymbolFails.of_name {rest q : List Byte} {v : Word} {t : Parsing}
    (fail : NameFails grant rest (nameBytes l).length q t) :
    SymbolFails grant (bigEndian v ++ rest) l (bigEndian v ++ q) t := by
  obtain ⟨file, clean, room, reason⟩ := fail
  refine ⟨?_, ?_, ?_, ?_⟩
  · rw [file, List.append_assoc]
  · rw [drop_bigEndian]
    exact clean
  · rw [drop_bigEndian]
    exact room
  · intro plenty
    rw [drop_bigEndian]
    obtain ended | full := reason plenty
    · exact Or.inl ended
    · exact Or.inr (Or.inr ⟨by simp, full⟩)

/-- The address and the name were read: that is an entry. -/
theorem SymbolRead.of_name {p p' t : Parsing} {v : Word} {q : List Byte} {z' : Sizes}
    (few : l.length + 1 < 2 ^ 30) (file : p.file = bigEndian v ++ p'.file)
    (block : p'.block = {
      num := l.length
      addr := l.map Symbol.addr ++ [v]
      names := nameBytes l
      namesStart := nameStarts l ++ [(nameBytes l).length] })
    (read : NameRead p' {
      addrMemSize := l.length + 1
      namesMemSize := (nameBytes l).length
      namesStartMemSize := l.length + 1
      bytesRead := ((Sizes.behind l).bytesRead + 4) % 2 ^ 32 } q t z') :
    SymbolRead l p ⟨v, q, read.clean⟩ { t with block := { t.block with num := t.block.num + 1 } }
      z' := by
  obtain ⟨file', clean, room, sizes, block'⟩ := read
  dsimp only at room sizes
  refine ⟨?_, ?_, ?_, ?_, ?_⟩
  · simp [Symbol.bytes, Symbol.stored, file, file']
  · rw [table_concat, block', block]
  · apply sizes.trans
    simp only [Sizes.behind, symbolBytes_concat, nameBytes_concat, List.length_append,
      length_bytes, length_stored, List.length_singleton]
    congr 1
    omega
  · simpa using few
  · rw [nameBytes_concat, List.length_append, length_stored]
    exact room

/-- One turn of the loop over the symbols reads an entry, or fails inside one. -/
theorem readSymbol_satisfies (grant : Nat → Bool) (block : p.block = .table l)
    (few : l.length < 2 ^ 30) (room : (nameBytes l).length < 2 ^ 30) :
    ∃ r t, (readSymbol (.behind l)).run grant p = .done r t [] ∧
      (∀ z, r = some z → ∃ s, SymbolRead l p s t z) ∧
      (r = none → ∃ taken, SymbolFails grant p.file l taken t) := by
  obtain ⟨file, _, clock⟩ := p
  dsimp only at block
  subst block
  obtain ⟨ok, block₁, clock₁, inc₁, granted₁, refused₁⟩ := incMemorySize_run grant
    (p := { file := file, block := .table l, clock := clock })
    (fun n b => { b with addr := resized b.addr n 0 }) few
  rw [readSymbol, run_bind, show (Sizes.behind l).addrMemSize = l.length from rfl, inc₁,
    Outcome.andThen_done, Outcome.prepend_nil]
  dsimp only
  cases ok with
  | false =>
      refine ⟨none, { file := file, block := block₁, clock := clock₁ }, rfl, by simp, fun _ => ?_⟩
      exact ⟨[], .at_once rfl room (refused₁ rfl)⟩
  | true =>
      obtain ⟨few', rfl⟩ := granted₁ rfl
      rw [if_neg (by simp), run_bind]
      cases word : readWord file with
      | none =>
          simp only [freadWord, word, run_bind, run_get, run_set, run_pure, Outcome.andThen_done,
            Outcome.prepend_nil]
          have short := readWord_eq_none_iff.mp word
          refine ⟨none, _, rfl, by simp, fun _ => ⟨file, ?_⟩⟩
          have nothing : file.drop 4 = [] := List.drop_eq_nil_of_le (Nat.le_of_lt short)
          exact ⟨by simp, by simp [nothing], by simpa [nothing] using room, fun _ => Or.inl rfl⟩
      | some pair =>
          obtain ⟨w, rest⟩ := pair
          obtain rfl := of_readWord word
          simp only [freadWord, word, run_bind, run_get, run_set, run_pure, modifyBlock, run_modify,
            Outcome.andThen_done, Outcome.prepend_nil]
          obtain ⟨ok, block₂, clock₂, inc₂, granted₂, refused₂⟩ := incMemorySize_run grant
            (p := { file := rest
                    block := {
                      num := l.length
                      addr := (resized (SymbolBlock.table l).addr (l.length + 1) 0).set l.length
                        (swapUint32 w)
                      names := nameBytes l
                      namesStart := nameStarts l }
                    clock := clock₁ })
            (fun n b => { b with namesStart := resized b.namesStart n 0 }) few
          rw [show (Sizes.behind l).namesStartMemSize = l.length from rfl,
            show (SymbolBlock.table l).num = l.length from rfl,
            show (SymbolBlock.table l).names = nameBytes l from rfl,
            show (SymbolBlock.table l).namesStart = nameStarts l from rfl, inc₂,
            Outcome.andThen_done, Outcome.prepend_nil]
          dsimp only
          cases ok with
          | false =>
              exact ⟨none, _, rfl, by simp, fun _ =>
                ⟨bigEndian (swapUint32 w), .at_address rfl room (refused₂ rfl)⟩⟩
          | true =>
              obtain ⟨_, rfl⟩ := granted₂ rfl
              have addrs : (resized (SymbolBlock.table l).addr (l.length + 1) 0).set l.length
                  (swapUint32 w) = l.map Symbol.addr ++ [swapUint32 w] := by
                have length : (l.map Symbol.addr).length = l.length := by simp
                rw [show (SymbolBlock.table l).addr = l.map Symbol.addr from rfl, ← length,
                  resized_succ, set_last]
              have starts (i : Nat) : (resized (nameStarts l) (l.length + 1) 0).set l.length i =
                  nameStarts l ++ [i] := by
                have length : (nameStarts l).length = l.length := by simp [nameStarts]
                rw [← length, resized_succ, set_last]
              rw [if_neg (by simp)]
              simp only [run_bind, run_modify, Outcome.andThen_done, Outcome.prepend_nil, addrs,
                starts]
              obtain ⟨r, t, run, done, fails⟩ := readNameFuel_satisfies grant (2 ^ 30 + 1)
                (p := { file := rest
                        block := {
                          num := l.length
                          addr := l.map Symbol.addr ++ [swapUint32 w]
                          names := nameBytes l
                          namesStart := nameStarts l ++ [(Sizes.behind l).namesMemSize] }
                        clock := clock₂ })
                (z := { addrMemSize := l.length + 1
                        namesMemSize := (Sizes.behind l).namesMemSize
                        namesStartMemSize := l.length + 1
                        bytesRead := ((Sizes.behind l).bytesRead + 4) % 2 ^ 32 })
                rfl room (Nat.mod_lt _ (by decide)) (by omega)
              rw [run, Outcome.andThen_done, Outcome.prepend_nil]
              cases r with
              | none =>
                  refine ⟨none, t, rfl, by simp, fun _ => ?_⟩
                  obtain ⟨q, fail⟩ := fails rfl
                  exact ⟨bigEndian (swapUint32 w) ++ q, .of_name fail⟩
              | some z =>
                  refine ⟨_, _, rfl, ?_, by simp⟩
                  rintro z' ⟨⟩
                  obtain ⟨q, read⟩ := done z rfl
                  exact ⟨_, .of_name few' rfl rfl read⟩

end Symbols

section Header

variable {grant : Nat → Bool}

/-- A block without a whole size has size -1. What there is of the header is taken. -/
theorem getBlockSize_short {p : Parsing} (short : p.file.length < 8) :
    getBlockSize.run grant p = .done (-1) { p with file := [] } [] := by
  have none : readWord (p.file.drop 4) = none := by
    rw [readWord_eq_none_iff, List.length_drop]
    omega
  simp only [getBlockSize, seek, freadWord, run_bind, run_modify, run_get, run_set, run_pure, none,
    Outcome.andThen_done, Outcome.prepend_nil]

/-- The origin is skipped, and the size is stored big-endian. -/
theorem getBlockSize_run {p : Parsing} {origin body : List Byte} {size : Word}
    (fours : origin.length = 4) (file : p.file = origin ++ bigEndian size ++ body) :
    getBlockSize.run grant p = .done size.toNat { p with file := body } [] := by
  obtain ⟨w, read, swapped⟩ := readWord_bigEndian size body
  have skipped : p.file.drop 4 = bigEndian size ++ body := by
    rw [file, List.append_assoc, ← fours, List.drop_left]
  simp only [getBlockSize, seek, freadWord, run_bind, run_modify, run_get, run_set, run_pure,
    skipped, read, Outcome.andThen_done, Outcome.prepend_nil, swapped]

/-- A file that is long enough has a whole header. -/
theorem exists_header {file : List Byte} (long : 8 ≤ file.length) :
    ∃ origin size body, origin.length = 4 ∧ file = origin ++ bigEndian size ++ body := by
  obtain ⟨a0, a1, a2, a3, rest, rfl⟩ := exists_four (f := file) (by omega)
  simp only [List.length_cons] at long
  obtain ⟨b0, b1, b2, b3, body, rfl⟩ := exists_four (f := rest) (by omega)
  refine ⟨[a0, a1, a2, a3], bigEndianWord b0 b1 b2 b3, body, rfl, ?_⟩
  rw [bigEndian_bigEndianWord]
  rfl

end Header

end Ijvm
