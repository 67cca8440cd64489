import ParanoidChain.Lib.Control
import ParanoidChain.Lib.Limbs

/-!
# Byte readers

A reader consumes a prefix of a byte string or fails. Each reader has one law, an equivalence: it
reads `a` and leaves `rest` exactly when the input is the encoding of `a` followed by `rest`. The
left-to-right direction says that whatever reads is canonical, the other one that encodings read
back; a record's law follows from its fields' by rewriting.
-/

namespace Lib.Wire

abbrev Byte := BitVec 8

abbrev Reader (ε : Type) := StateT (List Byte) (Except ε)

variable {ε α β : Type}

/-- The reader takes `a` off the front of `src` and leaves `rest`. -/
def Reads (reader : Reader ε α) (src : List Byte) (a : α) (rest : List Byte) : Prop :=
  reader.run src = .ok (a, rest)

variable {src rest : List Byte}

@[simp] theorem reads_pure {a b : α} :
    Reads (pure a : Reader ε α) src b rest ↔ a = b ∧ src = rest := by
  change Except.ok (a, src) = .ok (b, rest) ↔ _
  simp

/-- One reader after another: the second reads what the first left. -/
@[simp] theorem reads_bind {reader : Reader ε α} {next : α → Reader ε β} {b : β} :
    Reads (reader >>= next) src b rest ↔
      ∃ a middle, Reads reader src a middle ∧ Reads (next a) middle b rest := by
  simp [Reads, StateT.run_bind]

/-- A check that reads nothing. -/
def check (result : Except ε α) : Reader ε α := fun src => result.map (·, src)

/-- A check reads nothing and passes only with a result. -/
@[simp] theorem reads_check {result : Except ε α} {a : α} :
    Reads (check result) src a rest ↔ result = .ok a ∧ src = rest := by
  cases result <;> simp [Reads, check, StateT.run, Except.map]

/-- Looking at the rest of the input does not consume it. -/
@[simp] theorem reads_get {bytes : List Byte} :
    Reads (get : Reader ε (List Byte)) src bytes rest ↔ src = bytes ∧ src = rest := by
  simp [Reads]

/-- The next bytes, or the error of a short input. -/
def take (short : ε) (count : Nat) : Reader ε (List Byte) := fun src =>
  if src.length < count then .error short else .ok (src.take count, src.drop count)

variable {count : Nat}

/-- A fixed number of bytes is read exactly when it is in front of the rest. -/
theorem reads_take {short : ε} {bytes : List Byte} :
    Reads (take short count) src bytes rest ↔ bytes.length = count ∧ src = bytes ++ rest := by
  unfold Reads take StateT.run
  dsimp only
  split
  case isTrue few =>
    simp only [reduceCtorEq, false_iff, not_and]
    rintro rfl rfl
    simp at few
  case isFalse enough =>
    simp only [Except.ok.injEq, Prod.mk.injEq]
    constructor
    · rintro ⟨rfl, rfl⟩
      exact ⟨List.length_take_of_le (by omega), (List.take_append_drop _ _).symm⟩
    · rintro ⟨rfl, rfl⟩
      simp

/-! ## Little-endian words -/

/-- `to_le_bytes`. -/
def toLeBytes {w : Nat} (count : Nat) (word : BitVec w) : List Byte :=
  (List.range count).map fun index => word.extractLsb' (8 * index) 8

/-- `from_le_bytes`. -/
def fromLeBytes (w : Nat) (bytes : List Byte) : BitVec w := BitVec.ofNat w (Limbs.value bytes)

@[simp] theorem length_toLeBytes {w : Nat} (word : BitVec w) :
    (toLeBytes count word).length = count := by
  simp [toLeBytes]

/-- The bytes of a word are its digits, cut at the size. -/
theorem value_toLeBytes {w : Nat} (word : BitVec w) :
    Limbs.value (toLeBytes count word) = word.toNat % 2 ^ (8 * count) := by
  induction count with
  | zero => simp [toLeBytes, Nat.mod_one]
  | succ count ih =>
    have low : toLeBytes (count + 1) word =
        toLeBytes count word ++ [word.extractLsb' (8 * count) 8] := by
      simp [toLeBytes, List.range_succ]
    rw [low, Limbs.value_append, ih, length_toLeBytes, Limbs.value_cons, Limbs.value_nil, Nat.mul_zero,
      Nat.add_zero, BitVec.extractLsb'_toNat, Nat.shiftRight_eq_div_pow, Nat.mul_succ, Nat.pow_add,
      Nat.mod_mul]

/-- A word survives its own bytes. -/
theorem fromLeBytes_toLeBytes {w : Nat} (size : w = 8 * count) (word : BitVec w) :
    fromLeBytes w (toLeBytes count word) = word := by
  rw [← BitVec.toNat_inj, fromLeBytes, BitVec.toNat_ofNat, value_toLeBytes, ← size,
    Nat.mod_mod, Nat.mod_eq_of_lt word.isLt]

/-- Byte strings of one length are equal when their values are. -/
theorem value_inj {first second : List Byte} (same : first.length = second.length)
    (value : Limbs.value first = Limbs.value second) : first = second := by
  induction first generalizing second with
  | nil => exact (List.eq_nil_of_length_eq_zero same.symm).symm
  | cons byte first ih =>
    obtain ⟨other, second, rfl⟩ := List.exists_cons_of_length_eq_add_one same.symm
    rw [Limbs.value_cons, Limbs.value_cons] at value
    have := byte.isLt
    have := other.isLt
    have low : byte = other := BitVec.toNat_inj.mp (by omega)
    rw [low, ih (by simpa using same) (by omega)]

/-- Bytes survive the word they spell. -/
theorem toLeBytes_fromLeBytes {w : Nat} {bytes : List Byte} (size : w = 8 * bytes.length) :
    toLeBytes bytes.length (fromLeBytes w bytes) = bytes := by
  refine value_inj (length_toLeBytes _) ?_
  have small := Limbs.value_lt bytes
  rw [value_toLeBytes, fromLeBytes, BitVec.toNat_ofNat, size, Nat.mod_mod, Nat.mod_eq_of_lt small]

/-- A word of `count` bytes. -/
def takeWord (short : ε) (w count : Nat) : Reader ε (BitVec w) :=
  return fromLeBytes w (← take short count)

/-- A word of whole bytes is read exactly from its encoding. -/
theorem reads_takeWord {short : ε} {w : Nat} (size : w = 8 * count) {word : BitVec w} :
    Reads (takeWord short w count) src word rest ↔ src = toLeBytes count word ++ rest := by
  simp only [takeWord, reads_bind, reads_take, reads_pure]
  constructor
  · rintro ⟨bytes, middle, ⟨rfl, rfl⟩, rfl, rfl⟩
    rw [toLeBytes_fromLeBytes size]
  · rintro rfl
    exact ⟨_, _, ⟨length_toLeBytes word, rfl⟩, fromLeBytes_toLeBytes size word, rfl⟩

/-! ## Sequences -/

/-- The same reader, a fixed number of times, into a list. -/
def takeList (reader : Reader ε α) : Nat → Reader ε (List α)
  | 0 => pure []
  | count + 1 => do
    let first ← reader
    let others ← takeList reader count
    return first :: others

/-- The same reader, a fixed number of times, into an array. -/
def takeVector (reader : Reader ε α) : (count : Nat) → Reader ε (Vector α count)
  | 0 => pure #v[]
  | count + 1 => do
    let others ← takeVector reader count
    let last ← reader
    return others.push last

section Sequences

variable {reader : Reader ε α} {encode : α → List Byte} {Valid : α → Prop}

/-- If a reader reads the encodings of valid items, the list reader reads those of lists of them. -/
theorem reads_takeList
    (law : ∀ src a rest, Reads reader src a rest ↔ Valid a ∧ src = encode a ++ rest) {count : Nat}
    {list : List α} : Reads (takeList reader count) src list rest ↔
      list.length = count ∧ (∀ a ∈ list, Valid a) ∧ src = list.flatMap encode ++ rest := by
  induction count generalizing list src rest with
  | zero =>
    simp only [takeList, reads_pure, List.length_eq_zero_iff]
    constructor
    · rintro ⟨rfl, rfl⟩
      simp
    · rintro ⟨rfl, -, rfl⟩
      simp
  | succ count ih =>
    simp only [takeList, reads_bind, reads_pure, law, ih]
    constructor
    · rintro ⟨first, _, ⟨valid, rfl⟩, others, _, ⟨rfl, all, rfl⟩, rfl, rfl⟩
      simpa [valid] using all
    · rintro ⟨size, all, rfl⟩
      obtain ⟨first, others, rfl⟩ := List.exists_cons_of_length_eq_add_one size
      obtain ⟨valid, others_valid⟩ := List.forall_mem_cons.mp all
      refine ⟨first, others.flatMap encode ++ rest, ⟨valid, by simp⟩, others, rest,
        ⟨by simpa using size, others_valid, rfl⟩, rfl, rfl⟩

theorem reads_takeVector
    (law : ∀ src a rest, Reads reader src a rest ↔ src = encode a ++ rest) {count : Nat}
    {vector : Vector α count} : Reads (takeVector reader count) src vector rest ↔
      src = vector.toList.flatMap encode ++ rest := by
  induction count generalizing src rest with
  | zero =>
    obtain rfl : vector = #v[] := by simp
    simp [takeVector]
  | succ count ih =>
    simp only [takeVector, reads_bind, reads_pure, law, ih]
    constructor
    · rintro ⟨others, _, rfl, last, _, rfl, rfl, rfl⟩
      simp [Vector.toList_push]
    · rintro rfl
      refine ⟨vector.pop, _, ?_, vector.back, _, rfl, Vector.push_pop_back vector, rfl⟩
      conv_lhs => rw [← Vector.push_pop_back vector, Vector.toList_push]
      simp

end Sequences

end Lib.Wire
