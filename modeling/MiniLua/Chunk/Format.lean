import MiniLua.Bytes

/-!
The binary form of chunks. Numbers are little-endian; a string is its length and its bytes, a list
its count and its items.
-/

namespace MiniLua.Binary

/-- The bytes a binary chunk begins with. -/
def signature : Bytes := [0x1B, 0x4C, 0x4E, 0x54]

def version : UInt8 := 1

/-- The tags of constants. -/
def tagNil : UInt8 := 0
def tagFalse : UInt8 := 1
def tagTrue : UInt8 := 2
def tagInt : UInt8 := 3
def tagFloat : UInt8 := 4
def tagString : UInt8 := 5

/-- The tags of captures. -/
def tagCell : UInt8 := 0
def tagUpvalue : UInt8 := 1

/-- `count` bytes, the low ones first. -/
def littleEndian : Nat → Nat → Bytes
  | 0, _ => []
  | count + 1, n => n.toUInt8 :: littleEndian count (n / 256)

def ofLittleEndian (bytes : Bytes) : Nat := bytes.foldr (fun b n ↦ b.toNat + 256 * n) 0

theorem length_littleEndian (count n : Nat) : (littleEndian count n).length = count := by
  induction count generalizing n with
  | zero => rfl
  | succ count ih => simp [littleEndian, ih]

theorem ofLittleEndian_littleEndian (count n : Nat) :
    ofLittleEndian (littleEndian count n) = n % Nat.pow 256 count := by
  induction count generalizing n with
  | zero => simp [littleEndian, ofLittleEndian, Nat.mod_one]
  | succ count ih =>
    have h : ofLittleEndian (littleEndian (count + 1) n) =
        n % 256 + 256 * ofLittleEndian (littleEndian count (n / 256)) := by
      simp [littleEndian, ofLittleEndian]
    have hp : Nat.pow 256 (count + 1) = 256 * Nat.pow 256 count := Nat.mul_comm _ _
    rw [h, ih, hp, Nat.mod_mul]

end MiniLua.Binary
