import ParanoidChain.Fri.AffineCode
import ParanoidChain.Laws.Field.Hardware
import ParanoidChain.Lib.Challenges
import ParanoidChain.Lib.Overlay
import ParanoidChain.Lib.Subspace
import ParanoidChain.Lib.Sweep

/-!
# The affine code is a Reed–Solomon code

A code that `checked` accepts holds, at every level, the value of the subspace map at the next vector,
its inverse and the twiddles, which are the scaled maps at the points of the blocks. The butterfly
layers then evaluate the message in the novel polynomials, after any number of low folds those of the
projected vectors at the projected points. The points are distinct because the normalizers are not
zero, and the polynomials have degrees zero, one, two and so on, which gives the distance.
-/

namespace ParanoidChain.Fri

open Lib Subspace
open Hardware (Backend flat)

/-! ## Flat words as field elements -/

theorem mk_flatMul (backend : Backend) (left right : BitVec 128) :
    F128.mk (flatMul backend left right) = F128.mk left * F128.mk right :=
  Hardware.clmulGcm_eq_mul backend left right

theorem mk_xor (left right : BitVec 128) :
    F128.mk (left ^^^ right) = F128.mk left + F128.mk right := rfl

theorem mk_zero : F128.mk 0#128 = 0 := rfl

theorem mk_toFlat (value : BitVec 128) : F128.mk (toFlat value) = flat value := by
  rw [flat, Blocks.widen, BitVec.setWidth_eq, toFlat]

theorem toFlat_fromFlat (value : BitVec 128) : toFlat (fromFlat value) = value :=
  Hardware.towerToFlatU128_flatToTowerU128 value

theorem fromFlat_toFlat (value : BitVec 128) : fromFlat (toFlat value) = value :=
  Hardware.flatToTowerU128_towerToFlatU128 value

theorem flat_injective {x y : BitVec 128} (same : flat x = flat y) : x = y := by
  rw [← mk_toFlat, ← mk_toFlat] at same
  rw [← fromFlat_toFlat x, ← fromFlat_toFlat y]
  exact congrArg (fun value => fromFlat (F128.bits value)) same

theorem mk_flatInverse (value : BitVec 128) : F128.mk (flatInverse value) = (F128.mk value)⁻¹ := by
  obtain ⟨x, code⟩ := Blocks.block128Represents.code.surjective (fromFlat value)
  have word : Hardware.flattenBlock128.hom x = F128.mk value := by
    rw [Hardware.flattenBlock128.hom_eq, code, ← mk_toFlat, toFlat_fromFlat]
  rw [flatInverse, ← code, ← Blocks.block128Represents.invert, mk_toFlat,
    ← Hardware.flattenBlock128.hom_eq, map_inv₀, word]

/-- A list of words as field elements. -/
def words (list : List (BitVec 128)) (i : Nat) : F128 := ⟨list.getD i 0#128⟩

theorem words_eq {list : List (BitVec 128)} {i : Nat} (inside : i < list.length) :
    words list i = F128.mk list[i] := by
  rw [words, List.getD_eq_getElem _ _ inside]

theorem getD_map_range {α : Type} (f : Nat → α) {count i : Nat} (inside : i < count) (default : α) :
    ((List.range count).map f).getD i default = f i := by
  rw [List.getD_eq_getElem _ _ (by simpa using inside), List.getElem_map, List.getElem_range]

theorem mk_addSelected (start : BitVec 128) (list : List (BitVec 128)) (index : Nat) :
    F128.mk (addSelected start list index) =
      F128.mk start + combination (words list) list.length index := by
  induction list using List.reverseRecOn with
  | nil => simp [addSelected, combination]
  | append_singleton list word ih =>
    have split : addSelected start (list ++ [word]) index =
        if index.testBit list.length then addSelected start list index ^^^ word
        else addSelected start list index := by
      simp [addSelected, List.zipIdx_append]
    have lower : combination (words (list ++ [word])) list.length index =
        combination (words list) list.length index := by
      refine Finset.sum_congr rfl fun bit inside => ?_
      rw [words, words, List.getD_append _ _ _ _ (Finset.mem_range.1 inside)]
    have last : words (list ++ [word]) list.length = F128.mk word := by
      rw [words, List.getD_append_right _ _ _ _ le_rfl, Nat.sub_self, List.getD_cons_zero]
    rw [split, List.length_append, List.length_singleton, combination_succ, lower, last,
      ← add_assoc, ← ih]
    split
    · exact mk_xor _ _
    · rw [add_zero]

/-! ## What `checked` establishes -/

/-- The basis of a code. -/
def basisOf (code : ZkAffineLchCode) : Nat → F128 := words code.basisFlat

/-- The shift of a code. -/
def shiftOf (code : ZkAffineLchCode) : F128 := ⟨code.betaFlat⟩

/-- The tables of a code are the values of the subspace maps of its basis. -/
structure Tabulates (code : ZkAffineLchCode) : Prop where
  basis_length : code.basisFlat.length = affineCodeLogLen
  normalizers : ∀ level < affineCodeLogLen,
    words code.normalizersFlat level = normalizer (basisOf code) level
  inverses : ∀ level < affineCodeLogLen,
    words code.normalizerInversesFlat level = (normalizer (basisOf code) level)⁻¹
  nonzero : ∀ level < affineCodeLogLen, normalizer (basisOf code) level ≠ 0
  twiddles : ∀ layer < affineCodeLogLen, ∀ block < 2 ^ layer,
    F128.mk ((code.twiddlesFlat.getD layer []).getD block 0#128) =
      unit (basisOf code) (affineCodeLogLen - layer - 1) (shiftOf code +
        combination (fun bit => basisOf code (affineCodeLogLen - layer + bit)) layer block)
  outside : ∀ index, shiftOf code ≠ combination (basisOf code) affineCodeLogLen index

section Tables

variable (backend : Backend) (basis : List (BitVec 128))

theorem length_iterate_nextRow (level : Nat) :
    ((nextRow backend)^[level] basis).length = basis.length - level := by
  induction level with
  | zero => rfl
  | succ level ih =>
    rw [Function.iterate_succ_apply']
    cases row : (nextRow backend)^[level] basis with
    | nil =>
      rw [row] at ih
      simp [nextRow] at ih ⊢
      omega
    | cons root rest =>
      rw [row] at ih
      simp [nextRow] at ih ⊢
      omega

/-- The raw rows hold the maps at the later vectors. -/
theorem iterate_nextRow (level bit : Nat) (inside : level + bit < basis.length) :
    words ((nextRow backend)^[level] basis) bit =
      vanish (words basis) level (words basis (level + bit)) := by
  induction level generalizing bit with
  | zero => rw [Nat.zero_add]; rfl
  | succ level ih =>
    have long := length_iterate_nextRow backend basis level
    have current := ih (bit + 1) (by omega)
    have root := ih 0 (by omega)
    rw [Nat.add_zero] at root
    rw [Function.iterate_succ_apply']
    cases row : (nextRow backend)^[level] basis with
    | nil =>
      rw [row] at long
      simp at long
      omega
    | cons head rest =>
      rw [row] at long current root
      have short : bit < rest.length := by
        rw [List.length_cons] at long
        omega
      have entry : words (head :: rest) (bit + 1) = F128.mk rest[bit] := by
        rw [words, List.getD_cons_succ, List.getD_eq_getElem _ _ short]
      have first : words (head :: rest) 0 = F128.mk head := rfl
      rw [words, nextRow, List.getD_eq_getElem _ _ (by simpa using short), List.getElem_map,
        mk_flatMul, mk_xor, ← entry, ← first, current, root, vanish,
        show level + (bit + 1) = level + 1 + bit by omega]

/-- A loop over normalizers computes the map. -/
theorem mk_foldl_normalizers (vectors : Nat → F128) {list : List (BitVec 128)}
    (values : ∀ level < list.length, words list level = normalizer vectors level)
    (point : BitVec 128) :
    F128.mk (list.foldl (fun previous normalizer =>
      flatMul backend previous (previous ^^^ normalizer)) point) =
        vanish vectors list.length (F128.mk point) := by
  induction list using List.reverseRecOn with
  | nil => rfl
  | append_singleton list word ih =>
    have before := ih fun level inside => by
      rw [← values level (by rw [List.length_append]; omega), words, words,
        List.getD_append _ _ _ _ inside]
    have last : F128.mk word = normalizer vectors list.length := by
      rw [← values list.length (by simp), words, List.getD_append_right _ _ _ _ le_rfl,
        Nat.sub_self, List.getD_cons_zero]
    rw [List.foldl_append, List.foldl_cons, List.foldl_nil, mk_flatMul, mk_xor, before, last,
      List.length_append, List.length_singleton, vanish]
    rfl

variable {backend basis} {normalizersFlat inversesFlat : List (BitVec 128)} {beta : BitVec 128}
  (normalizers : ∀ level < affineCodeLogLen,
    words normalizersFlat level = normalizer (words basis) level)
  (inverses : ∀ level < affineCodeLogLen,
    words inversesFlat level = (normalizer (words basis) level)⁻¹)
  (inverseCount : inversesFlat.length = affineCodeLogLen)

include normalizers inverses inverseCount

/-- `beta_normalized` holds the scaled maps at the shift. -/
theorem mk_betaNormalized (normalizerCount : normalizersFlat.length = affineCodeLogLen) {level : Nat}
    (inside : level < affineCodeLogLen) :
    F128.mk ((List.zipWith (flatMul backend)
      ((normalizersFlat.take (affineCodeLogLen - 1)).scanl
        (fun previous normalizer => flatMul backend previous (previous ^^^ normalizer)) beta)
      inversesFlat).getD level 0#128) = unit (words basis) level (F128.mk beta) := by
  have raw : (normalizersFlat.take (affineCodeLogLen - 1)).length = affineCodeLogLen - 1 := by
    rw [List.length_take, normalizerCount]
    rfl
  have taken : ((normalizersFlat.take (affineCodeLogLen - 1)).take level).length = level := by
    rw [List.length_take, raw]
    change level < 16 at inside
    change min level 15 = level
    omega
  rw [List.getD_eq_getElem _ _ (by
    rw [List.length_zipWith, List.length_scanl, raw, inverseCount]
    exact inside), List.getElem_zipWith, List.getElem_scanl, mk_flatMul,
    mk_foldl_normalizers backend (words basis), taken, unit, ← inverses level inside,
    words, List.getD_eq_getElem _ _ (by rw [inverseCount]; exact inside)]
  intro lower below
  rw [taken] at below
  have short : lower < ((normalizersFlat.take (affineCodeLogLen - 1)).take level).length := by
    rwa [taken]
  rw [← normalizers lower (below.trans inside), words, words, List.getD_eq_getElem _ _ short,
    List.getElem_take, List.getElem_take, List.getD_eq_getElem]

omit normalizers in
/-- A normalized row holds the scaled maps at the later vectors. -/
theorem words_normalizedRow (backend : Backend) (long : basis.length = affineCodeLogLen)
    (level bit : Nat) (inside : level + bit < affineCodeLogLen) :
    words ((List.zipWith (fun row inverse => row.map (flatMul backend · inverse))
      (List.iterate (nextRow backend) basis affineCodeLogLen) inversesFlat).getD level []) bit =
        unit (words basis) level (words basis (level + bit)) := by
  have below : level < affineCodeLogLen := by omega
  have rows : (List.iterate (nextRow backend) basis affineCodeLogLen).length = affineCodeLogLen :=
    List.length_iterate ..
  have short : bit < ((nextRow backend)^[level] basis).length := by
    rw [length_iterate_nextRow, long]
    omega
  have raw := iterate_nextRow backend basis level bit (by rw [long]; exact inside)
  rw [words_eq short] at raw
  rw [List.getD_eq_getElem _ _ (by rw [List.length_zipWith, rows, inverseCount]; simpa using below),
    List.getElem_zipWith, List.getElem_iterate, words_eq (by simpa using short), List.getElem_map,
    mk_flatMul, raw, ← words_eq (by rw [inverseCount]; exact below), inverses level below, unit]

/-- The twiddles are the scaled maps at the points of the blocks. -/
theorem mk_twiddle (long : basis.length = affineCodeLogLen)
    (normalizerCount : normalizersFlat.length = affineCodeLogLen) {layer : Nat}
    (inside : layer < affineCodeLogLen) (block : Nat) :
    F128.mk (addSelected
      ((List.zipWith (flatMul backend) ((normalizersFlat.take (affineCodeLogLen - 1)).scanl
        (fun previous normalizer => flatMul backend previous (previous ^^^ normalizer)) beta)
        inversesFlat).getD (affineCodeLogLen - layer - 1) 0#128)
      ((List.zipWith (fun row inverse => row.map (flatMul backend · inverse))
        (List.iterate (nextRow backend) basis affineCodeLogLen) inversesFlat).getD
          (affineCodeLogLen - layer - 1) []).tail block) =
      unit (words basis) (affineCodeLogLen - layer - 1) (F128.mk beta +
        combination (fun bit => words basis (affineCodeLogLen - layer + bit)) layer block) := by
  have level : affineCodeLogLen - layer - 1 < affineCodeLogLen := by omega
  set row := (List.zipWith (fun row inverse => row.map (flatMul backend · inverse))
    (List.iterate (nextRow backend) basis affineCodeLogLen) inversesFlat).getD
      (affineCodeLogLen - layer - 1) [] with hrow
  have width : row.tail.length = layer := by
    rw [hrow, List.getD_eq_getElem _ _ (by
      rw [List.length_zipWith, List.length_iterate, inverseCount]
      simpa using level), List.getElem_zipWith, List.getElem_iterate, List.length_tail,
      List.length_map, length_iterate_nextRow, long]
    omega
  have entry (bit : Nat) (below : bit < layer) : words row.tail bit =
      unit (words basis) (affineCodeLogLen - layer - 1) (words basis (affineCodeLogLen - layer + bit)) := by
    have whole := words_normalizedRow inverses inverseCount backend long
      (affineCodeLogLen - layer - 1) (bit + 1) (by omega)
    rw [← hrow, show affineCodeLogLen - layer - 1 + (bit + 1) = affineCodeLogLen - layer + bit by
      omega] at whole
    rw [← whole]
    cases row <;> rfl
  rw [mk_addSelected, mk_betaNormalized normalizers inverses inverseCount normalizerCount level,
    unit_add, unit_combination, width]
  congr 1
  refine Finset.sum_congr rfl fun bit member => ?_
  rw [entry bit (Finset.mem_range.1 member)]

end Tables

/-! ## Spans of words -/

theorem span_combination (list : List (BitVec 128)) (index count : Nat)
    (inside : count ≤ list.length) :
    Echelon.Span (· ∈ list) (combination (words list) count index).bits := by
  induction count with
  | zero => exact .zero
  | succ count ih =>
    rw [combination_succ]
    split
    · refine (ih (by omega)).xor ?_
      rw [words, List.getD_eq_getElem _ _ inside]
      exact List.getElem_mem inside
    · rw [add_zero]
      exact ih (by omega)

/-- The span test decides membership. -/
theorem binarySpanContains_iff (list : List (BitVec 128)) (value : BitVec 128) :
    binarySpanContains list value = true ↔ Echelon.Span (· ∈ list) value := by
  rw [binarySpanContains, beq_iff_eq, binaryRank, binaryRank]
  rcases Echelon.rank_concat list value with ⟨same, inside⟩ | ⟨grown, apart⟩
  · simp [same, inside]
  · simp [grown, apart]

/-! ## Accepted codes -/

variable {basis : Fin affineCodeLogLen → BitVec 128}

/-- A code that `checked` accepts tabulates the maps of its basis. -/
theorem checked_tabulates {backend : Backend} {beta : BitVec 128} {code : ZkAffineLchCode}
    (ok : checked backend basis beta = .ok code) :
    Tabulates code := by
  simp only [checked, bind_eq_ok, reject_eq_ok, pure_eq_ok, not_not, ne_eq] at ok
  obtain ⟨-, rank, -, apart, -, -, normalizersFlat, normalizers, rfl⟩ := ok
  set basisFlat := List.ofFn fun i => toFlat (basis i)
  set rawRows := List.iterate (nextRow backend) basisFlat affineCodeLogLen
  have long : basisFlat.length = affineCodeLogLen := List.length_ofFn
  have rowCount : rawRows.length = affineCodeLogLen := List.length_iterate ..
  have row (level : Nat) (inside : level < affineCodeLogLen) :
      rawRows.getD level [] = (nextRow backend)^[level] basisFlat := by
    rw [List.getD_eq_getElem _ _ (by rw [rowCount]; exact inside), List.getElem_iterate]
  -- the loop over the levels
  have heads := eq_map_of_mapM (g := fun row => row.headD 0#128) normalizers (by
    intro row _ normalizer found
    simp only [bind_eq_ok, reject_eq_ok, pure_eq_ok] at found
    exact found.choose_spec.2.symm)
  have count : normalizersFlat.length = affineCodeLogLen := by
    rw [heads, List.length_map, rowCount]
  have head (level : Nat) (inside : level < affineCodeLogLen) :
      words normalizersFlat level = normalizer (words basisFlat) level := by
    have entry := iterate_nextRow backend basisFlat level 0 (by omega)
    rw [Nat.add_zero] at entry
    rw [normalizer, ← entry, ← row level inside, words, words, heads,
      List.getD_eq_getElem _ _ (by rw [List.length_map, rowCount]; exact inside), List.getElem_map,
      List.getD_eq_getElem rawRows _ (by rw [rowCount]; exact inside)]
    cases rawRows[level] <;> rfl
  have nonzero (level : Nat) (inside : level < affineCodeLogLen) :
      normalizer (words basisFlat) level ≠ 0 := by
    obtain ⟨-, calls⟩ := List.forall₂_iff_get.1 (mapM_eq_ok.1 normalizers)
    have call := calls level (by rw [rowCount]; exact inside) (by rw [count]; exact inside)
    simp only [bind_eq_ok, reject_eq_ok, pure_eq_ok] at call
    obtain ⟨-, other, same⟩ := call
    rw [← head level inside, words, List.getD_eq_getElem _ _ (by rw [count]; exact inside)]
    intro zero
    exact other (same.trans (congrArg F128.bits zero))
  have inverse (level : Nat) (inside : level < affineCodeLogLen) :
      words (normalizersFlat.map flatInverse) level = (normalizer (words basisFlat) level)⁻¹ := by
    rw [← head level inside, words, List.getD_eq_getElem _ _ (by simpa [count] using inside),
      List.getElem_map, mk_flatInverse, words,
      List.getD_eq_getElem _ _ (by rw [count]; exact inside)]
  refine ⟨long, head, inverse, nonzero, ?_, ?_⟩
  · intro layer inside block below
    rw [getD_map_range _ inside, getD_map_range _ below]
    exact mk_twiddle head inverse (by simpa using count) long count inside block
  · intro index equal
    refine apart ((binarySpanContains_iff _ _).2 ?_)
    have inSpan := span_combination basisFlat index _ long.ge
    have shift : F128.mk (toFlat beta) = combination (words basisFlat) affineCodeLogLen index := equal
    rwa [← shift] at inSpan

/-! ## The butterfly loops -/

section Loops

variable (backend : Backend)

variable {data : List (BitVec 128)}

theorem words_set {i : Nat} (inside : i < data.length) (value : BitVec 128) (pos : Nat) :
    words (data.set i value) pos = if pos = i then F128.mk value else words data pos := by
  have written := congrFun (getD_set inside value 0#128) pos
  rw [Function.update_apply] at written
  rw [words, written]
  split <;> rfl

theorem length_butterfly (twiddle : BitVec 128) (half : Nat) (data : List (BitVec 128))
    (left : Nat) :
    (ZkAffineLchCode.butterfly backend twiddle half data left).length = data.length := by
  simp [ZkAffineLchCode.butterfly]

theorem words_butterfly (twiddle : BitVec 128) {half : Nat} {left : Nat}
    (inside : left + half < data.length) (pos : Nat) :
    words (ZkAffineLchCode.butterfly backend twiddle half data left) pos =
      if pos = left + half then words data (left + half) +
        (words data left + words data (left + half) * F128.mk twiddle)
      else if pos = left then words data left + words data (left + half) * F128.mk twiddle
      else words data pos := by
  rw [ZkAffineLchCode.butterfly, words_set (by rw [List.length_set]; exact inside),
    words_set (by omega), mk_xor, mk_xor, mk_flatMul]
  rfl

/-- What a layer does to the block from `start`. -/
def crossed (twiddle : F128) (half start : Nat) (f : Nat → F128) (pos : Nat) : F128 :=
  if pos < start + half then f pos + f (pos + half) * twiddle
  else f pos + (f (pos - half) + f pos * twiddle)

/-- The loop over the offsets of a block. -/
theorem words_offsets (twiddle : BitVec 128) {half start : Nat}
    (inside : start + half + half ≤ data.length) :
    ((List.range half).foldl (fun data offset =>
      ZkAffineLchCode.butterfly backend twiddle half data (start + offset)) data).length =
        data.length ∧
    ∀ pos, words ((List.range half).foldl (fun data offset =>
      ZkAffineLchCode.butterfly backend twiddle half data (start + offset)) data) pos =
        if start ≤ pos ∧ pos < start + half + half then
          crossed (F128.mk twiddle) half start (words data) pos
        else words data pos := by
  let owner : Nat → Nat := fun pos =>
    if start ≤ pos ∧ pos < start + half + half then (pos - start) % half else half
  have place {pos i : Nat} (small : i < half) :
      owner pos = i ↔ pos = start + i ∨ pos = start + i + half := by
    by_cases here : start ≤ pos ∧ pos < start + half + half
    · simp only [owner, if_pos here]
      by_cases lower : pos - start < half
      · rw [Nat.mod_eq_of_lt lower]
        omega
      · rw [Nat.mod_eq_sub_mod (by omega), Nat.mod_eq_of_lt (by omega)]
        omega
    · simp only [owner, if_neg here]
      omega
  obtain ⟨kept, values⟩ := foldl_sweep words
    (fun table : List (BitVec 128) => table.length = data.length) owner
    (fun f pos => if start ≤ pos ∧ pos < start + half + half then
      crossed (F128.mk twiddle) half start f pos else f pos)
    (fun data offset => ZkAffineLchCode.butterfly backend twiddle half data (start + offset)) half
    (fun table i _ good => by rw [length_butterfly, good])
    (fun table i pos small good here => by
      rw [words_butterfly backend twiddle (by omega)]
      rcases (place small).1 here with rfl | rfl
      · rw [if_neg (by omega), if_pos rfl, if_pos (by omega), crossed, if_pos (by omega)]
      · rw [if_pos rfl, if_pos (by omega), crossed, if_neg (by omega), Nat.add_sub_cancel])
    (fun table i pos small good elsewhere => by
      rw [Ne, place small, not_or] at elsewhere
      rw [words_butterfly backend twiddle (by omega), if_neg elsewhere.2, if_neg elsewhere.1])
    (fun f g pos agree => by
      by_cases here : start ≤ pos ∧ pos < start + half + half
      · have positive : 0 < half := by omega
        have owned : owner pos < half := by
          simp only [owner, if_pos here]
          exact Nat.mod_lt _ positive
        have own := (place owned).1 rfl
        rw [if_pos here, if_pos here, crossed, crossed, agree pos rfl]
        split
        · rw [agree (pos + half) ((place owned).2 (by omega))]
        · rw [agree (pos - half) ((place owned).2 (by omega))]
      · rw [if_neg here, if_neg here, agree pos rfl])
    (s := data) rfl
  refine ⟨kept, fun pos => ?_⟩
  rw [values pos]
  by_cases here : start ≤ pos ∧ pos < start + half + half
  · have owned : owner pos < half := by
      simp only [owner, if_pos here]
      exact Nat.mod_lt _ (by omega)
    rw [if_pos owned]
  · rw [if_neg (by simp [owner, if_neg here]), if_neg here]

/-- One layer crosses every block with its twiddle. -/
theorem words_forwardLayer (code : ZkAffineLchCode) (rest : Nat) {codeLog layer : Nat}
    (size : data.length = 2 ^ codeLog) (split : codeLog = layer + (rest + 1)) :
    (code.forwardLayer backend codeLog data layer).length = 2 ^ codeLog ∧
    ∀ pos < 2 ^ codeLog, words (code.forwardLayer backend codeLog data layer) pos =
      crossed (F128.mk ((code.twiddlesFlat.getD layer []).getD (pos / 2 ^ (rest + 1)) 0#128))
        (2 ^ rest) (pos / 2 ^ (rest + 1) * 2 ^ (rest + 1)) (words data) pos := by
  have blockLog : codeLog - layer = rest + 1 := by omega
  have double : 2 ^ (rest + 1) = 2 ^ rest + 2 ^ rest := by rw [pow_succ]; omega
  have half : 2 ^ (rest + 1) / 2 = 2 ^ rest := by omega
  have whole : 2 ^ codeLog = 2 ^ layer * 2 ^ (rest + 1) := by rw [split, pow_add]
  have room {block : Nat} (small : block < 2 ^ layer) :
      block * 2 ^ (rest + 1) + 2 ^ rest + 2 ^ rest ≤ 2 ^ codeLog := by
    rw [whole, Nat.add_assoc, ← double, ← Nat.succ_mul]
    exact Nat.mul_le_mul_right _ small
  have positive : 0 < 2 ^ (rest + 1) := Nat.two_pow_pos _
  have place {pos block : Nat} : pos / 2 ^ (rest + 1) = block ↔
      block * 2 ^ (rest + 1) ≤ pos ∧ pos < block * 2 ^ (rest + 1) + 2 ^ rest + 2 ^ rest := by
    rw [Nat.div_eq_iff positive, Nat.add_assoc, ← double]
    omega
  simp only [ZkAffineLchCode.forwardLayer, blockLog, half]
  obtain ⟨kept, values⟩ := foldl_sweep words
    (fun table : List (BitVec 128) => table.length = 2 ^ codeLog) (fun pos => pos / 2 ^ (rest + 1))
    (fun f pos =>
      crossed (F128.mk ((code.twiddlesFlat.getD layer []).getD (pos / 2 ^ (rest + 1)) 0#128))
        (2 ^ rest) (pos / 2 ^ (rest + 1) * 2 ^ (rest + 1)) f pos)
    (fun data block => (List.range (2 ^ rest)).foldl (fun data offset =>
      ZkAffineLchCode.butterfly backend ((code.twiddlesFlat.getD layer []).getD block 0#128)
        (2 ^ rest) data (block * 2 ^ (rest + 1) + offset)) data) (2 ^ layer)
    (fun table block small good =>
      ((words_offsets backend _ (by rw [good]; exact room small)).1).trans good)
    (fun table block pos small good here => by
      rw [(words_offsets backend _ (by rw [good]; exact room small)).2 pos, if_pos (place.1 here),
        here])
    (fun table block pos small good elsewhere => by
      rw [(words_offsets backend _ (by rw [good]; exact room small)).2 pos,
        if_neg (fun here => elsewhere (place.2 here))])
    (fun f g pos agree => by
      have here := place.1 (rfl : pos / 2 ^ (rest + 1) = _)
      rw [crossed, crossed, agree pos rfl]
      split
      · rw [agree (pos + 2 ^ rest) (place.2 (by omega))]
      · rw [agree (pos - 2 ^ rest) (place.2 (by omega))])
    (s := data) size
  refine ⟨kept, fun pos inside => ?_⟩
  rw [values pos, if_pos]
  rw [Nat.div_lt_iff_lt_mul positive, ← whole]
  exact inside

end Loops

/-! ## The transform -/

section Transform

variable (backend : Backend) {code : ZkAffineLchCode} (tabulates : Tabulates code)

include tabulates

/-- After some layers every block holds the partly bound message. -/
theorem words_layers {codeLog folds : Nat} (total : folds + codeLog = affineCodeLogLen)
    {data : List (BitVec 128)} (size : data.length = 2 ^ codeLog) {done : Nat}
    (within : done ≤ codeLog) :
    ((List.range done).foldl (code.forwardLayer backend codeLog) data).length = 2 ^ codeLog ∧
    ∀ block < 2 ^ done, ∀ offset < 2 ^ (codeLog - done),
      words ((List.range done).foldl (code.forwardLayer backend codeLog) data)
          (block * 2 ^ (codeLog - done) + offset) =
        blockEntry (basisOf code) (shiftOf code) folds (words data) (codeLog - done) done block
          offset := by
  induction done with
  | zero =>
    refine ⟨size, fun block single offset _ => ?_⟩
    obtain rfl : block = 0 := by simpa using single
    rw [blockEntry_start, Nat.zero_mul, Nat.zero_add]
    rfl
  | succ done ih =>
    obtain ⟨kept, before⟩ := ih (by omega)
    obtain ⟨rest, remaining⟩ : ∃ rest, codeLog - done = rest + 1 := ⟨codeLog - done - 1, by omega⟩
    have left : codeLog - (done + 1) = rest := by omega
    obtain ⟨length, values⟩ := words_forwardLayer backend code rest kept
      (show codeLog = done + (rest + 1) by omega)
    rw [remaining] at before
    rw [List.range_succ, List.foldl_append, List.foldl_cons, List.foldl_nil, left]
    refine ⟨length, fun block below offset small => ?_⟩
    -- the lowest bit of the block says on which side of its parent it lies
    obtain ⟨parent, upper, rfl⟩ : ∃ parent : Nat, ∃ upper : Bool, block = 2 * parent + upper.toNat :=
      ⟨block / 2, decide (block % 2 = 1), by
        rcases Nat.mod_two_eq_zero_or_one block with even | odd
        · simp [even]; omega
        · simp [odd]; omega⟩
    have double : 2 ^ (rest + 1) = 2 ^ rest + 2 ^ rest := by rw [pow_succ]; omega
    have parentBelow : parent < 2 ^ done := by
      rw [pow_succ] at below
      omega
    have position : (2 * parent + upper.toNat) * 2 ^ rest + offset =
        parent * 2 ^ (rest + 1) + (upper.toNat * 2 ^ rest + offset) := by
      rw [double]
      ring
    have side : upper.toNat * 2 ^ rest + offset < 2 ^ (rest + 1) := by
      cases upper <;> simp <;> omega
    have owner : (parent * 2 ^ (rest + 1) + (upper.toNat * 2 ^ rest + offset)) / 2 ^ (rest + 1) =
        parent := by
      rw [Nat.mul_comm, Nat.mul_add_div (Nat.two_pow_pos _), Nat.div_eq_of_lt side, Nat.add_zero]
    have room : parent * 2 ^ (rest + 1) + (upper.toNat * 2 ^ rest + offset) < 2 ^ codeLog := by
      have whole : 2 ^ codeLog = 2 ^ done * 2 ^ (rest + 1) := by
        rw [← pow_add, show codeLog = done + (rest + 1) by omega]
      calc _ < parent * 2 ^ (rest + 1) + 2 ^ (rest + 1) := Nat.add_lt_add_left side _
        _ = (parent + 1) * 2 ^ (rest + 1) := by ring
        _ ≤ 2 ^ done * 2 ^ (rest + 1) := Nat.mul_le_mul_right _ parentBelow
        _ = 2 ^ codeLog := whole.symm
    have twiddle := tabulates.twiddles done (by omega) parent parentBelow
    rw [show affineCodeLogLen - done - 1 = folds + rest by omega,
      show affineCodeLogLen - done = folds + (rest + 1) by omega] at twiddle
    rw [position, values _ room, owner, twiddle, crossed,
      blockEntry_double _ _ _ _ (tabulates.nonzero (folds + rest) (by omega)),
      ← before parent parentBelow offset (by omega),
      ← before parent parentBelow (2 ^ rest + offset) (by omega)]
    cases upper with
    | false =>
      rw [if_pos (by simp; omega)]
      simp only [Bool.toNat_false, Nat.zero_mul, Nat.zero_add, Bool.false_eq_true, if_false, add_zero,
        blockPoint]
      rw [show parent * 2 ^ (rest + 1) + offset + 2 ^ rest =
        parent * 2 ^ (rest + 1) + (2 ^ rest + offset) by omega]
    | true =>
      rw [if_neg (by simp), show parent * 2 ^ (rest + 1) + (Bool.toNat true * 2 ^ rest + offset) -
        2 ^ rest = parent * 2 ^ (rest + 1) + offset by simp; omega]
      simp only [Bool.toNat_true, Nat.one_mul, if_true, blockPoint]
      ring

/-- The transform evaluates a message in the novel polynomials of the projected vectors. -/
theorem words_forwardFlat {codeLog folds : Nat} (total : folds + codeLog = affineCodeLogLen)
    (short : folds < affineCodeLogLen) {data : List (BitVec 128)} (size : data.length = 2 ^ codeLog)
    {pos : Nat} (inside : pos < 2 ^ codeLog) :
    words (code.forwardFlat backend data codeLog) pos = ∑ i ∈ Finset.range (2 ^ codeLog),
      words data i * (novel (project (basisOf code) folds) codeLog i).eval
        (unit (basisOf code) folds (shiftOf code +
          combination (fun bit => basisOf code (folds + bit)) codeLog pos)) := by
  have values := (words_layers backend tabulates total size le_rfl).2 pos inside 0
    (by rw [Nat.sub_self]; exact Nat.one_pos)
  rw [Nat.sub_self, pow_zero, Nat.mul_one, Nat.add_zero,
    blockEntry_end _ _ _ _ (tabulates.nonzero folds short)] at values
  exact values

end Transform

/-! ## The code -/

/-- The point at which the symbol of a position is evaluated after some folds: the projection of the
domain point `index << folds`. -/
def projectedPoint (backend : Backend) (code : ZkAffineLchCode) (folds position : Nat) : F128 :=
  ⟨code.normalizedSubspaceEvalFlat backend folds (code.domainPointFlat (position <<< folds))⟩

/-- The novel polynomial of a message cell after some folds. -/
noncomputable def novelPolynomial (code : ZkAffineLchCode) (folds cell : Nat) : Polynomial F128 :=
  novel (project (basisOf code) folds) (affineCodeLogLen - folds) cell

section Code

variable (backend : Backend) {code : ZkAffineLchCode} (tabulates : Tabulates code)

include tabulates

theorem mk_domainPointFlat (index : Nat) : F128.mk (code.domainPointFlat index) =
    shiftOf code + combination (basisOf code) affineCodeLogLen index := by
  rw [ZkAffineLchCode.domainPointFlat, mk_addSelected, tabulates.basis_length]
  rfl

theorem mk_normalizedSubspaceEvalFlat {level : Nat} (inside : level < affineCodeLogLen)
    (point : BitVec 128) : F128.mk (code.normalizedSubspaceEvalFlat backend level point) =
      unit (basisOf code) level (F128.mk point) := by
  have loop : (List.range level).foldl (fun value previousLevel =>
      flatMul backend value (value ^^^ code.normalizersFlat.getD previousLevel 0#128)) point =
      ((List.range level).map fun lower => code.normalizersFlat.getD lower 0#128).foldl
        (fun previous normalizer => flatMul backend previous (previous ^^^ normalizer)) point := by
    rw [List.foldl_map]
  rw [ZkAffineLchCode.normalizedSubspaceEvalFlat, loop, mk_flatMul,
    mk_foldl_normalizers backend (basisOf code), List.length_map, List.length_range, unit,
    ← tabulates.inverses level inside]
  · rfl
  · intro lower below
    rw [List.length_map, List.length_range] at below
    rw [← tabulates.normalizers lower (below.trans inside), words, getD_map_range _ below]
    rfl

/-- The points after some folds are an affine subspace again. -/
theorem projectedPoint_eq {folds : Nat} (short : folds < affineCodeLogLen) (position : Nat) :
    projectedPoint backend code folds position = unit (basisOf code) folds (shiftOf code +
      combination (fun bit => basisOf code (folds + bit)) (affineCodeLogLen - folds) position) := by
  rw [projectedPoint, mk_normalizedSubspaceEvalFlat backend tabulates short,
    mk_domainPointFlat tabulates, ← combination_shiftLeft, Nat.add_sub_cancel' short.le]

/-- The points of a level are distinct. -/
theorem projectedPoint_injective {folds : Nat} (short : folds < affineCodeLogLen)
    {first second : Nat} (belowFirst : first < 2 ^ (affineCodeLogLen - folds))
    (belowSecond : second < 2 ^ (affineCodeLogLen - folds))
    (same : projectedPoint backend code folds first = projectedPoint backend code folds second) :
    first = second := by
  rw [projectedPoint_eq backend tabulates short, projectedPoint_eq backend tabulates short, unit_add,
    unit_add, add_right_inj, unit_combination, unit_combination] at same
  have nonzero : ∀ level < affineCodeLogLen - folds,
      normalizer (project (basisOf code) folds) level ≠ 0 := fun level inside =>
    normalizer_project_ne_zero (tabulates.nonzero folds short)
      (tabulates.nonzero (folds + level) (by omega))
  exact combination_injective nonzero belowFirst belowSecond same

/-- The novel polynomial of a cell has the degree of its index. -/
theorem degree_novelPolynomial {folds : Nat} (short : folds < affineCodeLogLen) {cell : Nat}
    (inside : cell < 2 ^ (affineCodeLogLen - folds)) :
    (novelPolynomial code folds cell).degree = cell := by
  refine degree_novel (fun level below => ?_) inside
  exact normalizer_project_ne_zero (tabulates.nonzero folds short)
    (tabulates.nonzero (folds + level) (by omega))

/-- Encoding evaluates the combination of the message with the novel polynomials. -/
theorem encodeAfterLowFolds_eq {folds : Nat} (inRange : folds ≤ affineCodeMessageLog)
    {message : List (BitVec 128)} (size : message.length = 2 ^ (affineCodeMessageLog - folds)) :
    ∃ codeword, code.encodeAfterLowFolds backend message folds = .ok codeword ∧
      codeword.length = 2 ^ (affineCodeLogLen - folds) ∧
      ∀ position < 2 ^ (affineCodeLogLen - folds), flat (codeword.getD position 0#128) =
        (∑ cell ∈ Finset.range (2 ^ (affineCodeMessageLog - folds)),
          Polynomial.C (flat (message.getD cell 0#128)) * novelPolynomial code folds cell).eval
            (projectedPoint backend code folds position) := by
  change folds ≤ 11 at inRange
  have short : folds < affineCodeLogLen := by
    change folds < 16
    omega
  set data := message.map toFlat ++
    List.replicate (2 ^ (affineCodeLogLen - folds) - message.length) 0#128 with hdata
  have fits : 2 ^ (affineCodeMessageLog - folds) ≤ 2 ^ (affineCodeLogLen - folds) :=
    Nat.pow_le_pow_right two_pos (Nat.sub_le_sub_right (by decide) _)
  have wide : data.length = 2 ^ (affineCodeLogLen - folds) := by
    rw [hdata, List.length_append, List.length_map, List.length_replicate, size]
    omega
  have total : folds + (affineCodeLogLen - folds) = affineCodeLogLen :=
    Nat.add_sub_cancel' short.le
  refine ⟨(code.forwardFlat backend data (affineCodeLogLen - folds)).map fromFlat, ?_, ?_, ?_⟩
  · simp only [ZkAffineLchCode.encodeAfterLowFolds, bind_eq_ok, reject_eq_ok, pure_eq_ok]
    exact ⟨(), by change ¬ 11 < folds; omega, (), not_not.2 size, rfl⟩
  · rw [List.length_map]
    exact (words_layers backend tabulates total wide le_rfl).1
  · intro position inside
    have long : (code.forwardFlat backend data (affineCodeLogLen - folds)).length =
        2 ^ (affineCodeLogLen - folds) := (words_layers backend tabulates total wide le_rfl).1
    rw [List.getD_eq_getElem _ _ (by rw [List.length_map, long]; exact inside), List.getElem_map,
      ← mk_toFlat, toFlat_fromFlat, ← words_eq, words_forwardFlat backend tabulates total short wide
        inside, projectedPoint_eq backend tabulates short, Polynomial.eval_finsetSum]
    -- the cells after the message are zero
    rw [← Finset.sum_subset (Finset.range_subset_range.2 fits)]
    · refine Finset.sum_congr rfl fun cell member => ?_
      have inMessage : cell < message.length := by
        rw [size]
        exact Finset.mem_range.1 member
      rw [Polynomial.eval_mul, Polynomial.eval_C, novelPolynomial, words, hdata,
        List.getD_append _ _ _ _ (by rw [List.length_map]; exact inMessage),
        List.getD_eq_getElem _ _ (by rw [List.length_map]; exact inMessage), List.getElem_map,
        mk_toFlat, List.getD_eq_getElem _ _ inMessage]
    · intro cell _ outside
      rw [Finset.mem_range, not_lt, ← size] at outside
      have padding : data.getD cell 0#128 = 0#128 := by
        rw [hdata, List.getD_append_right _ _ _ _ (by rw [List.length_map]; exact outside),
          List.getD_eq_getElem?_getD, List.getElem?_replicate]
        split <;> rfl
      rw [words, padding, mk_zero, zero_mul]

end Code

/-! ## Which bases are accepted -/

/-- Independent vectors and a shift outside their span are accepted. -/
theorem checked_accepts (backend : Backend) {beta : BitVec 128}
    (independent : ∀ level vector, (List.ofFn fun i => toFlat (basis i))[level]? = some vector →
      ¬ Echelon.Span (· ∈ (List.ofFn fun i => toFlat (basis i)).take level) vector)
    (outside : ¬ Echelon.Span (· ∈ List.ofFn fun i => toFlat (basis i)) (toFlat beta)) :
    ∃ code, checked backend basis beta = .ok code := by
  set basisFlat := List.ofFn fun i => toFlat (basis i)
  have long : basisFlat.length = affineCodeLogLen := List.length_ofFn
  have rank : binaryRank basisFlat = affineCodeLogLen :=
    (Echelon.rank_eq_length independent).trans long
  have fundamental : ¬ binarySpanContains (basisFlat.take affineFundamentalLog) (toFlat beta) := by
    rw [binarySpanContains_iff]
    intro inside
    exact outside (inside.bind fun y member => .single (List.mem_of_mem_take member))
  -- a zero normalizer puts its vector into the span of the earlier ones
  have normalizers : ∀ row ∈ List.iterate (nextRow backend) basisFlat affineCodeLogLen,
      (do let normalizer := row.headD 0#128
          reject (normalizer = 0#128) ZkAffineCodeError.zeroSubspaceNormalizer
          pure normalizer) = Except.ok (row.headD 0#128) := by
    intro row member
    obtain ⟨level, inside, rfl⟩ := List.mem_iterate.1 member
    simp only [bind_eq_ok, reject_eq_ok, pure_eq_ok]
    refine ⟨(), fun zero => ?_, trivial⟩
    have raw := iterate_nextRow backend basisFlat level 0 (by omega)
    have first : words ((nextRow backend)^[level] basisFlat) 0 = 0 := by
      rw [words, ← mk_zero, ← zero]
      cases (nextRow backend)^[level] basisFlat <;> rfl
    rw [first, Nat.add_zero, eq_comm, vanish_eq_zero_iff] at raw
    obtain ⟨index, -, equal⟩ := raw
    have short : level < basisFlat.length := by rw [long]; exact inside
    refine independent level basisFlat[level] (List.getElem?_eq_getElem short) ?_
    have earlier : (basisFlat.take level).length = level := by
      rw [List.length_take]
      omega
    have inSpan := span_combination (basisFlat.take level) index level earlier.ge
    have same : combination (words (basisFlat.take level)) level index =
        combination (words basisFlat) level index := by
      refine Finset.sum_congr rfl fun bit below => ?_
      have lower := Finset.mem_range.1 below
      rw [words_eq (by rw [earlier]; exact lower), List.getElem_take, words_eq]
    rw [same, ← equal, words_eq short] at inSpan
    exact inSpan
  simp only [checked, bind_eq_ok, reject_eq_ok, pure_eq_ok]
  exact ⟨_, (), not_not.2 rank, (), (binarySpanContains_iff _ _).not.2 outside, (), fundamental, _,
    mapM_eq_map normalizers, rfl⟩

/-- A sum of powers of two below a bit does not have the bit. -/
theorem span_twoPow {count : Nat} {x : BitVec 128}
    (inside : Echelon.Span (· ∈ (List.range count).map (BitVec.twoPow 128)) x) (bit : Nat)
    (above : count ≤ bit) : x.getLsbD bit = false := by
  induction inside with
  | zero => exact BitVec.getLsbD_zero
  | xor _ member ih =>
    obtain ⟨lower, below, rfl⟩ := List.mem_map.1 member
    rw [BitVec.getLsbD_xor, ih, BitVec.getLsbD_twoPow]
    simp [show lower ≠ bit by have := List.mem_range.1 below; omega]

/-- The selected code is accepted. -/
theorem selected_accepts (backend : Backend) : ∃ code, selected backend = .ok code := by
  have vectors : (List.ofFn fun i : Fin affineCodeLogLen =>
      toFlat (fromFlat (BitVec.twoPow 128 i))) = (List.range 16).map (BitVec.twoPow 128) := by
    simp only [toFlat_fromFlat]
    rfl
  refine checked_accepts backend ?_ ?_
  · rw [vectors]
    intro level vector found inside
    obtain ⟨short, rfl⟩ := List.getElem?_eq_some_iff.1 found
    rw [List.length_map, List.length_range] at short
    rw [← List.map_take, List.take_range, min_eq_left short.le] at inside
    have clear := span_twoPow inside _ le_rfl
    rw [List.getElem_map, List.getElem_range, BitVec.getLsbD_twoPow] at clear
    simp at clear
    omega
  · rw [vectors, toFlat_fromFlat]
    intro inside
    have clear := span_twoPow inside 16 le_rfl
    rw [BitVec.getLsbD_twoPow] at clear
    exact absurd clear (by decide)

/-! ## The distance -/

/-- Only a message of the right length is encoded. -/
theorem length_of_encoded {backend : Backend} {code : ZkAffineLchCode} {folds : Nat}
    {message codeword : List (BitVec 128)}
    (ok : code.encodeAfterLowFolds backend message folds = .ok codeword) :
    message.length = 2 ^ (affineCodeMessageLog - folds) := by
  simp only [ZkAffineLchCode.encodeAfterLowFolds, bind_eq_ok, reject_eq_ok, not_not, ne_eq] at ok
  obtain ⟨-, -, -, size, -⟩ := ok
  exact size

/-- The affine code is a Reed–Solomon code at every fold level: the points of a level are distinct, the
novel polynomials have the degrees of their indices, a symbol is the value of the message's combination
of them, and two different messages agree in fewer positions than they have cells. -/
theorem affine_code_reed_solomon (backend : Backend) (basis : Fin affineCodeLogLen → BitVec 128)
    (beta : BitVec 128) (code : ZkAffineLchCode) (accepted : checked backend basis beta = .ok code)
    (folds : Nat) (inRange : folds ≤ affineCodeMessageLog) :
    Set.InjOn (projectedPoint backend code folds) (Set.Iio (2 ^ (affineCodeLogLen - folds))) ∧
    (∀ cell < 2 ^ (affineCodeMessageLog - folds),
      (novelPolynomial code folds cell).degree = cell) ∧
    (∀ message : List (BitVec 128), message.length = 2 ^ (affineCodeMessageLog - folds) →
      ∃ codeword, code.encodeAfterLowFolds backend message folds = .ok codeword ∧
        codeword.length = 2 ^ (affineCodeLogLen - folds) ∧
        ∀ position < 2 ^ (affineCodeLogLen - folds), flat (codeword.getD position 0#128) =
          (∑ cell ∈ Finset.range (2 ^ (affineCodeMessageLog - folds)),
            Polynomial.C (flat (message.getD cell 0#128)) * novelPolynomial code folds cell).eval
              (projectedPoint backend code folds position)) ∧
    (∀ first second codeword other : List (BitVec 128), first ≠ second →
      code.encodeAfterLowFolds backend first folds = .ok codeword →
      code.encodeAfterLowFolds backend second folds = .ok other →
      ((Finset.range (2 ^ (affineCodeLogLen - folds))).filter fun position =>
        codeword.getD position 0#128 = other.getD position 0#128).card ≤
          2 ^ (affineCodeMessageLog - folds) - 1) := by
  have tabulates := checked_tabulates accepted
  have short : folds < affineCodeLogLen := inRange.trans_lt (by decide)
  have fits : 2 ^ (affineCodeMessageLog - folds) ≤ 2 ^ (affineCodeLogLen - folds) :=
    Nat.pow_le_pow_right two_pos (Nat.sub_le_sub_right (by decide) _)
  have degrees : ∀ cell < 2 ^ (affineCodeMessageLog - folds),
      (novelPolynomial code folds cell).degree = cell := fun cell inside =>
    degree_novelPolynomial tabulates short (inside.trans_le fits)
  refine ⟨fun p hp q hq => projectedPoint_injective backend tabulates short hp hq, degrees,
    fun message size => encodeAfterLowFolds_eq backend tabulates inRange size, ?_⟩
  intro first second codeword other differ okFirst okSecond
  have sizeFirst := length_of_encoded okFirst
  have sizeSecond := length_of_encoded okSecond
  obtain ⟨_, foundFirst, -, symbolFirst⟩ := encodeAfterLowFolds_eq backend tabulates inRange sizeFirst
  obtain ⟨_, foundSecond, -, symbolSecond⟩ :=
    encodeAfterLowFolds_eq backend tabulates inRange sizeSecond
  obtain rfl := Except.ok.inj (okFirst.symm.trans foundFirst)
  obtain rfl := Except.ok.inj (okSecond.symm.trans foundSecond)
  set polynomial : List (BitVec 128) → Polynomial F128 := fun message =>
    ∑ cell ∈ Finset.range (2 ^ (affineCodeMessageLog - folds)),
      Polynomial.C (flat (message.getD cell 0#128)) * novelPolynomial code folds cell
  have apart : polynomial first ≠ polynomial second := by
    intro same
    apply differ
    refine List.ext_getElem (sizeFirst.trans sizeSecond.symm) fun cell inFirst inSecond => ?_
    by_contra other
    have gap : flat (first.getD cell 0#128) - flat (second.getD cell 0#128) ≠ 0 := by
      rw [List.getD_eq_getElem _ _ inFirst, List.getD_eq_getElem _ _ inSecond, sub_ne_zero]
      exact fun equal => other (flat_injective equal)
    refine sum_ne_zero degrees (c := fun cell =>
      flat (first.getD cell 0#128) - flat (second.getD cell 0#128)) (sizeFirst ▸ inFirst) gap ?_
    simp only [Polynomial.C_sub, sub_mul, Finset.sum_sub_distrib]
    exact sub_eq_zero.2 same
  have natDegree (message : List (BitVec 128)) :
      (polynomial message).natDegree ≤ 2 ^ (affineCodeMessageLog - folds) - 1 := by
    refine Nat.le_sub_one_of_lt ?_
    by_cases zero : polynomial message = 0
    · rw [zero, Polynomial.natDegree_zero]
      exact Nat.two_pow_pos _
    · rw [Polynomial.natDegree_lt_iff_degree_lt zero]
      exact_mod_cast degree_sum_lt degrees _
  have agree := Challenges.card_agree_le apart (natDegree first) (natDegree second)
    ((Finset.range (2 ^ (affineCodeLogLen - folds))).image (projectedPoint backend code folds))
  refine (Finset.card_le_card_of_injOn (projectedPoint backend code folds) ?_ ?_).trans agree
  · intro position member
    obtain ⟨inside, same⟩ := Finset.mem_filter.1 member
    have below := Finset.mem_range.1 inside
    refine Finset.mem_filter.2 ⟨Finset.mem_image_of_mem _ inside, ?_⟩
    rw [← symbolFirst position below, ← symbolSecond position below, same]
  · intro p hp q hq
    exact projectedPoint_injective backend tabulates short
      (Finset.mem_range.1 (Finset.mem_filter.1 hp).1) (Finset.mem_range.1 (Finset.mem_filter.1 hq).1)

/-- The selected code after nine folds: two messages of four cells are encoded at 128 distinct points
and agree at no more than three of them. -/
theorem affine_code_reed_solomon_selected : ∃ code codeword other,
    selected .soft = .ok code ∧
      Set.InjOn (projectedPoint .soft code 9) (Set.Iio (2 ^ (affineCodeLogLen - 9))) ∧
      (novelPolynomial code 9 3).degree = 3 ∧
      code.encodeAfterLowFolds .soft [1, 2, 3, 4] 9 = .ok codeword ∧
      code.encodeAfterLowFolds .soft [1, 2, 4, 3] 9 = .ok other ∧
      codeword.length = 128 ∧
      ((Finset.range 128).filter fun position =>
        codeword.getD position 0#128 = other.getD position 0#128).card ≤ 3 := by
  obtain ⟨code, accepted⟩ := selected_accepts .soft
  obtain ⟨points, degrees, encodes, distance⟩ :=
    affine_code_reed_solomon .soft _ _ code accepted 9 (by decide)
  obtain ⟨codeword, first, length, -⟩ := encodes [1, 2, 3, 4] rfl
  obtain ⟨other, second, -⟩ := encodes [1, 2, 4, 3] rfl
  exact ⟨code, codeword, other, accepted, points, degrees 3 (by decide), first, second, length,
    distance _ _ _ _ (by decide) first second⟩

end ParanoidChain.Fri
