import LaneGraph.Code.Encoded
import LaneGraph.Proofs.Results
import Mathlib.Data.List.Nodup

/-!
# Reading a code stream

An opcode stands in a code stream in front of its operands, and an instruction is as long
as its opcode asks for; a call says in a word of its own how many arguments it has. So the
words of instructions that follow one another are read back as these instructions. The
other way round, whatever the words of a stream are, reading divides them: the entries
that are read make up the front of the stream, and where words are left over, no
instruction begins with them.
-/

namespace LaneGraph

namespace Opcode

/-- Every opcode is in the list of all opcodes. -/
theorem mem_all (op : Opcode) : op ∈ all := by
  cases op with
  | function f => cases f <;> decide
  | operation o constant => cases o <;> cases constant <;> decide
  | select c => cases c <;> decide
  | load t => cases t <;> decide
  | store t => cases t <;> decide
  | storeConst t => cases t <;> decide
  | move => decide
  | call => decide

/-- There are few enough opcodes for their places to be words. -/
theorem length_all : all.length = 100 := by decide

/-- No opcode has two words. -/
theorem nodup_all : all.Nodup := by decide +kernel

/-- The word of an opcode gives the opcode back. -/
theorem ofWord?_word (op : Opcode) : ofWord? op.word = some op := by
  have hlt : all.idxOf op < all.length := List.idxOf_lt_length_of_mem op.mem_all
  have hword : op.word.toNat = all.idxOf op := by
    unfold word
    rw [length_all] at hlt
    exact UInt32.toNat_ofNat_of_lt' (by rw [UInt32.size]; omega)
  unfold ofWord?
  rw [hword, List.getElem?_eq_getElem hlt, List.getElem_idxOf hlt]

/-- The opcode of a word gives the word back. -/
theorem word_of_ofWord? {w : UInt32} {op : Opcode} (h : ofWord? w = some op) : op.word = w := by
  obtain ⟨hlt, rfl⟩ := List.getElem?_eq_some_iff.mp h
  unfold word
  rw [nodup_all.idxOf_getElem, UInt32.ofNat_toNat]

end Opcode

/-- An opcode with operands, wherever it stands. -/
structure Phrase where
  /-- The opcode. -/
  opcode : Opcode
  /-- The words after it. -/
  operands : List UInt32
deriving DecidableEq, Repr

namespace Phrase

/-- The words of a phrase. -/
def words (p : Phrase) : List UInt32 := p.opcode.word :: p.operands

/-- The operands are as many as the opcode asks for. Those of a call are the function, the
result, the number of arguments and the arguments. -/
def Fits (p : Phrase) : Prop :=
  match p.opcode.layout.fixedOperands? with
  | some count => p.operands.length = count
  | none => ∃ function result arguments, arguments.length < 2 ^ 32 ∧
      p.operands = function :: result :: UInt32.ofNat arguments.length :: arguments

/-- Phrases that stand one after the other from a position on. -/
def placed : Nat → List Phrase → List Encoded
  | _, [] => []
  | offset, p :: rest => ⟨offset, p.opcode, p.operands⟩ :: placed (offset + p.words.length) rest

variable {p : Phrase}

/-- The number of operands is found where the operands fit. -/
theorem Fits.operandCount (h : p.Fits) (offset : Nat) (rest : List UInt32) :
    Encoded.operandCount offset p.opcode (p.operands ++ rest) = .ok p.operands.length := by
  unfold Fits at h
  unfold Encoded.operandCount
  cases hfixed : p.opcode.layout.fixedOperands? with
  | some count =>
    rw [hfixed] at h
    rw [← h]
  | none =>
    rw [hfixed] at h
    obtain ⟨function, result, arguments, hlt, hoperands⟩ := h
    have hcount : (UInt32.ofNat arguments.length).toNat = arguments.length :=
      UInt32.toNat_ofNat_of_lt' hlt
    rw [hoperands]
    simp only [List.cons_append, List.getElem?_cons_succ, List.getElem?_cons_zero,
      List.length_cons, hcount]
    rw [Nat.add_comm]

/-- The words of a phrase are read as the phrase. -/
theorem Fits.ofWords (h : p.Fits) (offset : Nat) (rest : List UInt32) :
    Encoded.ofWords offset (p.words ++ rest) = .ok ⟨offset, p.opcode, p.operands⟩ := by
  unfold Encoded.ofWords words
  rw [List.cons_append]
  simp only [Opcode.ofWord?_word, h.operandCount, List.length_append, Nat.le_add_right, if_true,
    List.take_left]

end Phrase

namespace Encoded

/-- An instruction without its place. -/
def phrase (i : Encoded) : Phrase := ⟨i.opcode, i.operands⟩

/-- The first operands fit their opcode if they are as many as are asked for. -/
theorem fits_of_operandCount {offset count : Nat} {op : Opcode} {rest : List UInt32}
    (h : operandCount offset op rest = .ok count) (hle : count ≤ rest.length) :
    Phrase.Fits ⟨op, rest.take count⟩ := by
  unfold operandCount at h
  unfold Phrase.Fits
  cases hfixed : op.layout.fixedOperands? with
  | some n =>
    rw [hfixed] at h
    cases h
    exact List.length_take_of_le hle
  | none =>
    rw [hfixed] at h
    match rest, h with
    | function :: result :: number :: arguments, h =>
      cases h
      have hlength : (arguments.take number.toNat).length = number.toNat :=
        List.length_take_of_le (by simp only [List.length_cons] at hle; omega)
      refine ⟨function, result, arguments.take number.toNat, ?_, ?_⟩
      · rw [hlength]
        exact number.toNat_lt
      · rw [hlength, UInt32.ofNat_toNat, Nat.add_comm]
        rfl

/-- Where the number of operands is not found, the instruction at the position is
malformed. -/
theorem malformed_of_operandCount {offset : Nat} {op : Opcode} {rest : List UInt32}
    {e : MachineError} (h : operandCount offset op rest = .error e) :
    ∃ cause, e = .malformed offset cause := by
  unfold operandCount at h
  split at h
  · cases h
  · split at h
    · cases h
    · cases h
      exact ⟨_, rfl⟩

/-- The words of a stream begin with the instruction that is read, which has as many
operands as its opcode asks for, or what stands at the position is malformed. -/
theorem ofWords_divides (offset : Nat) (code : List UInt32) :
    Returns (fun e => ∃ cause, e = .malformed offset cause)
      (fun i => i.offset = offset ∧ i.phrase.Fits ∧ ∃ rest, code = i.words ++ rest)
      (ofWords offset code) := by
  unfold ofWords
  cases code with
  | nil => exact .of_error ⟨_, rfl⟩
  | cons word rest =>
    dsimp only
    cases hop : Opcode.ofWord? word with
    | none => exact .of_error ⟨_, rfl⟩
    | some op =>
      dsimp only
      cases hcount : operandCount offset op rest with
      | error e => exact .of_error (malformed_of_operandCount hcount)
      | ok count =>
        dsimp only
        split
        · rename_i hle
          refine .of_ok ⟨rfl, fits_of_operandCount hcount hle, rest.drop count, ?_⟩
          unfold words
          rw [Opcode.word_of_ofWord? hop, List.cons_append, List.take_append_drop]
        · exact .of_error ⟨_, rfl⟩

/-- Phrases at the front of a stream are read one after the other. -/
theorem readFrom_append (phrases : List Phrase) (h : ∀ p ∈ phrases, p.Fits)
    (steps offset : Nat) (rest : List UInt32) :
    readFrom (phrases.length + steps) offset (phrases.flatMap Phrase.words ++ rest) =
      (Phrase.placed offset phrases).map .ok ++
        readFrom steps (offset + (phrases.flatMap Phrase.words).length) rest := by
  induction phrases generalizing offset with
  | nil => simp [Phrase.placed]
  | cons p later ih =>
    have hread := (h p List.mem_cons_self).ofWords offset
      (later.flatMap Phrase.words ++ rest)
    have hlength : 1 + p.operands.length = p.words.length := by
      rw [Phrase.words, List.length_cons, Nat.add_comm]
    rw [List.flatMap_cons, List.append_assoc, Phrase.placed, List.map_cons, List.length_cons,
      Nat.add_right_comm, readFrom]
    · rw [hread]
      dsimp only
      rw [Encoded.length, hlength, List.drop_left, ih fun q hq => h q (List.mem_cons_of_mem _ hq),
        List.length_append, Nat.add_assoc]
      rfl
    · exact fun hnil => by simp [Phrase.words] at hnil

/-- Every phrase has a word at least. -/
theorem length_le_words (phrases : List Phrase) :
    phrases.length ≤ (phrases.flatMap Phrase.words).length := by
  induction phrases with
  | nil => exact Nat.le_refl _
  | cons p rest ih =>
    rw [List.flatMap_cons, List.length_append, List.length_cons, Phrase.words, List.length_cons]
    omega

/-- The words of phrases are read back as the phrases in their places. -/
theorem readAll_words (phrases : List Phrase) (h : ∀ p ∈ phrases, p.Fits) :
    readAll (phrases.flatMap Phrase.words) = (Phrase.placed 0 phrases).map .ok := by
  obtain ⟨steps, hsteps⟩ := Nat.exists_eq_add_of_le (length_le_words phrases)
  have hread := readFrom_append phrases h steps 0 []
  rw [List.append_nil] at hread
  rw [readAll, hsteps, hread]
  cases steps <;> exact List.append_nil _

/-- What reading makes of the words from a position on: the phrases that were read, and
what is left over. -/
structure Divides (offset : Nat) (code : List UInt32) (phrases : List Phrase)
    (rest : List UInt32) (entries : List (Except MachineError Encoded)) : Prop where
  /-- Each phrase has as many operands as its opcode asks for. -/
  fits : ∀ p ∈ phrases, p.Fits
  /-- The phrases are the front of the stream. -/
  code : code = phrases.flatMap Phrase.words ++ rest
  /-- What is left over does not begin with another phrase. -/
  ended : ∀ (p : Phrase) (later : List UInt32), p.Fits → rest ≠ p.words ++ later
  /-- The entries are the phrases in their places. If words are left over, an error follows,
  at the position where they begin, and nothing else. -/
  entries : rest = [] ∧ entries = (Phrase.placed offset phrases).map .ok ∨
    rest ≠ [] ∧ ∃ cause, entries = (Phrase.placed offset phrases).map .ok ++
      [.error (.malformed (offset + (phrases.flatMap Phrase.words).length) cause)]

namespace Divides

variable {offset : Nat} {code rest : List UInt32} {phrases : List Phrase}
  {entries : List (Except MachineError Encoded)}

/-- There are no words. -/
theorem nil (offset : Nat) : Divides offset [] [] [] [] where
  fits := fun _ hp => (nomatch hp)
  code := rfl
  ended := fun _ _ _ h => (nomatch h)
  entries := .inl ⟨rfl, rfl⟩

/-- No instruction begins with the words. -/
theorem error {e : MachineError} (h : ofWords offset code = .error e) (hcode : code ≠ []) :
    Divides offset code [] code [.error e] where
  fits := fun _ hp => (nomatch hp)
  code := rfl
  ended := by
    rintro p later hfits rfl
    rw [hfits.ofWords] at h
    cases h
  entries := by
    obtain ⟨cause, rfl⟩ := (ofWords_divides offset code).error e h
    exact .inr ⟨hcode, cause, rfl⟩

/-- An instruction is read before the others. -/
theorem cons {p : Phrase} (hfits : p.Fits)
    (h : Divides (offset + p.words.length) code phrases rest entries) :
    Divides offset (p.words ++ code) (p :: phrases) rest
      (.ok ⟨offset, p.opcode, p.operands⟩ :: entries) where
  fits := by
    intro q hq
    rcases List.mem_cons.mp hq with rfl | hq
    · exact hfits
    · exact h.fits q hq
  code := by rw [List.flatMap_cons, List.append_assoc, ← h.code]
  ended := h.ended
  entries := by
    rw [List.flatMap_cons, List.length_append, ← Nat.add_assoc]
    rcases h.entries with ⟨hrest, hentries⟩ | ⟨hrest, cause, hentries⟩
    · exact .inl ⟨hrest, by rw [hentries]; rfl⟩
    · exact .inr ⟨hrest, cause, by rw [hentries]; rfl⟩

end Divides

/-- Reading divides the words of a stream. -/
theorem readFrom_divides (steps offset : Nat) (code : List UInt32) (h : code.length ≤ steps) :
    ∃ phrases rest, Divides offset code phrases rest (readFrom steps offset code) := by
  induction steps generalizing offset code with
  | zero =>
    rw [List.eq_nil_of_length_eq_zero (Nat.le_zero.mp h)]
    exact ⟨[], [], .nil offset⟩
  | succ steps ih =>
    cases code with
    | nil => exact ⟨[], [], .nil offset⟩
    | cons word tail =>
      have hdivides := ofWords_divides offset (word :: tail)
      unfold readFrom
      cases hread : ofWords offset (word :: tail) with
      | error e => exact ⟨[], word :: tail, .error hread (List.cons_ne_nil _ _)⟩
      | ok i =>
        obtain ⟨rfl, hfits, later, hcode⟩ := hdivides.ok i hread
        have hlength : i.length = i.phrase.words.length := Nat.add_comm 1 i.operands.length
        have hshort : later.length ≤ steps := by
          have hwhole := congrArg List.length hcode
          rw [List.length_append, words, List.length_cons, List.length_cons] at hwhole
          rw [List.length_cons] at h
          omega
        obtain ⟨phrases, rest, hlater⟩ := ih (i.offset + i.length) later hshort
        dsimp only
        rw [hcode, show (i.words ++ later).drop i.length = later by
          rw [hlength]; exact List.drop_left]
        rw [hlength] at hlater ⊢
        exact ⟨i.phrase :: phrases, rest, .cons hfits hlater⟩

/-! ## Reading one instruction at a time -/

/-- The next entry from a position of a stream on, and the position after it. Nothing is
read behind the end, nor behind an error. -/
def next? (code : List UInt32) (position : Nat) :
    Option (Except MachineError Encoded × Nat) :=
  if code.length ≤ position then none
  else
    match decode code position with
    | .ok i => some (.ok i, position + i.length)
    | .error e => some (.error e, code.length)

/-- The entries that are given from a position on until there are no more. -/
inductive Yields (code : List UInt32) : Nat → List (Except MachineError Encoded) → Prop
  | done {position : Nat} (last : next? code position = none) : Yields code position []
  | entry {position later : Nat} {entry : Except MachineError Encoded}
    {entries : List (Except MachineError Encoded)}
    (first : next? code position = some (entry, later)) (others : Yields code later entries) :
    Yields code position (entry :: entries)

/-- There are no two ways to go on. -/
theorem Yields.unique {code : List UInt32} {position : Nat}
    {entries entries' : List (Except MachineError Encoded)} (h : Yields code position entries)
    (h' : Yields code position entries') : entries = entries' := by
  induction h generalizing entries' with
  | done last =>
    cases h' with
    | done => rfl
    | entry first => rw [last] at first; cases first
  | entry first _ ih =>
    cases h' with
    | done last => rw [last] at first; cases first
    | entry first' others' =>
      rw [first] at first'
      cases first'
      rw [ih others']

/-- Asking for one entry after the other gives those that are read at once. -/
theorem yields_readFrom (code : List UInt32) (steps position : Nat)
    (h : code.length ≤ steps + position) :
    Yields code position (readFrom steps position (code.drop position)) := by
  induction steps generalizing position with
  | zero => exact .done (if_pos (by omega))
  | succ steps ih =>
    by_cases hend : code.length ≤ position
    · rw [List.drop_eq_nil_of_le hend]
      exact .done (if_pos hend)
    · have hnext : next? code position = _ := if_neg hend
      obtain ⟨word, tail, hcode⟩ : ∃ word tail, code.drop position = word :: tail :=
        List.exists_cons_of_ne_nil (mt List.drop_eq_nil_iff.mp hend)
      rw [decode] at hnext
      rw [hcode] at hnext ⊢
      unfold readFrom
      cases hread : ofWords position (word :: tail) with
      | error e =>
        rw [hread] at hnext
        exact .entry hnext (.done (if_pos (Nat.le_refl _)))
      | ok i =>
        rw [hread] at hnext
        dsimp only
        rw [← hcode, List.drop_drop]
        exact .entry hnext (ih _ (by rw [Encoded.length]; omega))

/-- The entries of a stream, asked for one after the other, are those that are read at
once. -/
theorem yields_iff {code : List UInt32} {entries : List (Except MachineError Encoded)} :
    Yields code 0 entries ↔ entries = readAll code := by
  have hall : Yields code 0 (readAll code) := yields_readFrom code code.length 0 (Nat.le_refl _)
  exact ⟨fun h => h.unique hall, fun h => h ▸ hall⟩

/-- Reading inverts writing, and divides any stream. Asking a code stream for one entry after
the other comes to an end. The words of instructions that follow one another, each with as
many operands as its opcode asks for, give these instructions in their places. The words of
any stream give instructions that make up its front; then the words are used up, or one
error follows at the position where no instruction begins, and nothing else. -/
theorem reading_inverts_and_divides :
    (∀ code entries, Yields code 0 entries ↔ entries = readAll code) ∧
    (∀ phrases : List Phrase, (∀ p ∈ phrases, p.Fits) →
      readAll (phrases.flatMap Phrase.words) = (Phrase.placed 0 phrases).map .ok) ∧
    (∀ code, ∃ phrases rest, Divides 0 code phrases rest (readAll code)) := by
  exact ⟨fun code entries => yields_iff, fun phrases h => readAll_words phrases h,
    fun code => readFrom_divides code.length 0 code (Nat.le_refl _)⟩

namespace CallAndMove

/-- A call with two arguments, and a constant that is put into a register. -/
def phrases : List Phrase := [⟨.call, [0, 2, 2, 0, 1]⟩, ⟨.move, [3, 7]⟩]

end CallAndMove

/-- Both phrases are read, the second one six words after the first. A third one that ends
too early is reported at its opcode, and nothing else. -/
theorem reading_inverts_and_divides_call :
    (∀ p ∈ CallAndMove.phrases, p.Fits) ∧
    readAll (CallAndMove.phrases.flatMap Phrase.words) =
      [.ok ⟨0, .call, [0, 2, 2, 0, 1]⟩, .ok ⟨6, .move, [3, 7]⟩] ∧
    ∃ phrases rest, Divides 0 (CallAndMove.phrases.flatMap Phrase.words ++ [Opcode.move.word, 3])
      phrases rest [.ok ⟨0, .call, [0, 2, 2, 0, 1]⟩, .ok ⟨6, .move, [3, 7]⟩,
        .error (.malformed 9 (.truncated .move))] := by
  obtain ⟨-, hinverts, hdivides⟩ := reading_inverts_and_divides
  have hfits : ∀ p ∈ CallAndMove.phrases, p.Fits := by
    intro p hp
    rcases List.mem_pair.mp hp with rfl | rfl
    · exact ⟨0, 2, [0, 1], by decide, rfl⟩
    · exact rfl
  have hread : readAll (CallAndMove.phrases.flatMap Phrase.words ++ [Opcode.move.word, 3]) =
      [.ok ⟨0, .call, [0, 2, 2, 0, 1]⟩, .ok ⟨6, .move, [3, 7]⟩,
        .error (.malformed 9 (.truncated .move))] := by
    decide +kernel
  exact ⟨hfits, hinverts _ hfits, hread ▸ hdivides _⟩

end Encoded

end LaneGraph
