import ParanoidChain.Field.Tower

/-!
# The binary tower on packed words

The arithmetic of `noid_core/src/tower` as it is stored: an element of `Block8` to `Block128` is one
machine word, `split` and `new` cut and join its halves, and every level from `Block16` on runs the
same Karatsuba product, squaring and inversion over the level below with that level's constant.
`Block256` keeps its two halves apart.
-/

namespace ParanoidChain.Blocks

/-- The operators of a level with their neutral elements. -/
structure Arithmetic (α : Type) where
  zero : α
  one : α
  add : α → α → α
  mul : α → α → α

/-- `TowerField`, with the inherent `square` of the blocks. -/
structure TowerField (α : Type) extends Arithmetic α where
  extensionTau : α
  square : α → α
  invert : α → α

section Extension

variable {w : Nat}

/-- `split`: the lower half first. -/
def split (word : BitVec (w + w)) : BitVec w × BitVec w :=
  (word.setWidth w, (word >>> w).setWidth w)

/-- `new`. -/
def new (lo hi : BitVec w) : BitVec (w + w) :=
  hi.setWidth (w + w) <<< w ||| lo.setWidth (w + w)

/-- `Mul` of a level above `Block8`. -/
def karatsuba (below : TowerField (BitVec w)) (self rhs : BitVec (w + w)) : BitVec (w + w) :=
  let (a0, a1) := split self
  let (b0, b1) := split rhs
  let v0 := below.mul a0 b0
  let v1 := below.mul a1 b1
  let vSum := below.mul (below.add a0 a1) (below.add b0 b1)
  let cLo := below.add v0 (below.mul v1 below.extensionTau)
  let cHi := below.add v0 vSum
  new cLo cHi

/-- `square` of a level above `Block8`. -/
def frobenius (below : TowerField (BitVec w)) (self : BitVec (w + w)) : BitVec (w + w) :=
  let (a, b) := split self
  let a2 := below.square a
  let b2 := below.square b
  let lo := below.add a2 (below.mul b2 below.extensionTau)
  new lo b2

/-- `invert` of a level above `Block8`. -/
def invertByNorm (below : TowerField (BitVec w)) (self : BitVec (w + w)) : BitVec (w + w) :=
  let (l, h) := split self
  let h2 := below.mul h h
  let l2 := below.mul l l
  let hl := below.mul h l
  let norm := below.add (below.add (below.mul h2 below.extensionTau) hl) l2
  let normInv := below.invert norm
  let resHi := below.mul h normInv
  let resLo := below.mul (below.add h l) normInv
  new resLo resHi

/-- The level of twice the width, with its own constant. -/
def extension (below : TowerField (BitVec w)) (tau : BitVec (w + w)) :
    TowerField (BitVec (w + w)) where
  zero := 0#(w + w)
  one := 1#(w + w)
  add a b := a ^^^ b
  mul := karatsuba below
  extensionTau := tau
  square := frobenius below
  invert := invertByNorm below

end Extension

/-! ## The levels -/

/-- `Bit`, for the values `Bit::new` makes. -/
def bit : Arithmetic (BitVec 1) where
  zero := 0#1
  one := 1#1
  add a b := a ^^^ b
  mul a b := a &&& b

/-- `Block8`: the entries of `GF256_MUL_TABLE`, its diagonal `SQR_TABLE` and `GF256_INV_TABLE`. -/
def block8 : TowerField (BitVec 8) where
  zero := 0#8
  one := 1#8
  add a b := a ^^^ b
  mul := Tower.gf256MulEntry
  extensionTau := 0x20#8
  square a := Tower.gf256MulEntry a a
  invert := Tower.gf256InvEntry

/-- `Block16`. -/
def block16 : TowerField (BitVec 16) := extension block8 0x2000#16

/-- `Block32`. -/
def block32 : TowerField (BitVec 32) := extension block16 0x20000000#32

/-- `Block64`. -/
def block64 : TowerField (BitVec 64) := extension block32 0x2000000000000000#64

/-- `Block128`. -/
def block128 : TowerField (BitVec 128) :=
  extension block64 0x20000000000000000000000000000000#128

/-- `Block256`. -/
@[ext]
structure Block256 where
  lo : BitVec 128
  hi : BitVec 128
  deriving DecidableEq

namespace Block256

/-- `Block256::from_base`. -/
def fromBase (value : BitVec 128) : Block256 := ⟨value, block128.zero⟩

/-- `Block256::is_in_base_subfield`. -/
def isInBaseSubfield (self : Block256) : Bool := self.hi == 0#128

/-- `Add` of `Block256`. -/
def add (self rhs : Block256) : Block256 :=
  ⟨block128.add self.lo rhs.lo, block128.add self.hi rhs.hi⟩

/-- `Mul` of `Block256`. -/
def mul (self rhs : Block256) : Block256 :=
  let v0 := block128.mul self.lo rhs.lo
  let v1 := block128.mul self.hi rhs.hi
  let vSum := block128.mul (block128.add self.lo self.hi) (block128.add rhs.lo rhs.hi)
  ⟨block128.add v0 (block128.mul v1 block128.extensionTau), block128.add v0 vSum⟩

/-- `Block256::square`. -/
def square (self : Block256) : Block256 :=
  let lo2 := block128.square self.lo
  let hi2 := block128.square self.hi
  ⟨block128.add lo2 (block128.mul hi2 block128.extensionTau), hi2⟩

/-- `Block256::invert`, which squares where the other levels multiply. -/
def invert (self : Block256) : Block256 :=
  let lo2 := block128.square self.lo
  let hi2 := block128.square self.hi
  let hiLo := block128.mul self.hi self.lo
  let norm := block128.add (block128.add (block128.mul hi2 block128.extensionTau) hiLo) lo2
  let normInv := block128.invert norm
  ⟨block128.mul (block128.add self.hi self.lo) normInv, block128.mul self.hi normInv⟩

/-- `Block256::from_raw_challenge_lanes`. -/
def fromRawChallengeLanes (lo rawHi : BitVec 128) : Block256 :=
  ⟨lo, block128.add (block128.add (block128.square rawHi) rawHi) block128.extensionTau⟩

end Block256

/-- `Block256` as a level. -/
def block256 : TowerField Block256 where
  zero := ⟨block128.zero, block128.zero⟩
  one := ⟨block128.one, block128.zero⟩
  add := Block256.add
  mul := Block256.mul
  extensionTau := ⟨block128.zero, block128.extensionTau⟩
  square := Block256.square
  invert := Block256.invert

/-- The levels stored in one word. -/
inductive Level
  | block8
  | block16
  | block32
  | block64
  | block128
  deriving DecidableEq, Repr

namespace Level

def bits : Level → Nat
  | block8 => 8
  | block16 => 16
  | block32 => 32
  | block64 => 64
  | block128 => 128

/-- The arithmetic of a level. -/
def field : (level : Level) → TowerField (BitVec level.bits)
  | block8 => Blocks.block8
  | block16 => Blocks.block16
  | block32 => Blocks.block32
  | block64 => Blocks.block64
  | block128 => Blocks.block128

end Level

/-- `From` of a shorter word: the new bits are zero. -/
def widen {v : Nat} (w : Nat) (word : BitVec v) : BitVec w := word.setWidth w

end ParanoidChain.Blocks
