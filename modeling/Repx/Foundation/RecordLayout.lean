import Mathlib.Algebra.Order.Ring.Nat
import Mathlib.Data.List.Basic
import Mathlib.Data.Vector.Defs
import Repx.Foundation.ByteString

/-! # Records in memory

The fields of a structure lie one behind the other, each at the next multiple of its
alignment. A format says how a value is written behind a position of a memory and read
from there. Formats are put together field by field, and what has been written into a
memory of any contents is read back.
-/
namespace Repx.RecordLayout
open ByteString
variable {α β : Type}

def readAt (memory : Str) (offset size : ℕ) : Str := (memory.drop offset).take size

def writeAt (memory : Str) (offset : ℕ) (bytes : Str) : Str :=
  memory.take offset ++ bytes ++ memory.drop (offset + bytes.length)

/-- The bytes from `start` up to `finish` agree. -/
def Agree (start finish : ℕ) (memory memory' : Str) : Prop :=
  ∀ i, start ≤ i → i < finish → memory[i]? = memory'[i]?

/-- The bytes outside of `start` up to `finish` are kept. -/
structure Keeps (start finish : ℕ) (memory memory' : Str) : Prop where
  length : memory'.length = memory.length
  outside : ∀ i, i < start ∨ finish ≤ i → memory'[i]? = memory[i]?

theorem Keeps.trans {start finish : ℕ} {m m' m'' : Str} (h : Keeps start finish m m')
    (h' : Keeps start finish m' m'') : Keeps start finish m m'' :=
  ⟨h'.length.trans h.length,fun i hi => (h'.outside i hi).trans (h.outside i hi)⟩

theorem Keeps.mono {start finish start' finish' : ℕ} {m m' : Str} (h : Keeps start finish m m')
    (hs : start' ≤ start) (hf : finish ≤ finish') : Keeps start' finish' m m' :=
  ⟨h.length,fun i hi => h.outside i (by omega)⟩

theorem readAt_congr {memory memory' : Str} {offset size : ℕ} (h : Agree offset (offset + size) memory memory') :
    readAt memory offset size = readAt memory' offset size := by
  apply List.ext_getElem?
  intro i
  by_cases hi : i < size
  · simpa [readAt,List.getElem?_take,List.getElem?_drop,hi] using h (offset + i) (by omega) (by omega)
  · simp [readAt,hi]

section Write
variable {memory bytes : Str} {offset : ℕ}

theorem keeps_writeAt (h : offset + bytes.length ≤ memory.length) :
    Keeps offset (offset + bytes.length) memory (writeAt memory offset bytes) := by
  refine ⟨?_,fun i hi => ?_⟩
  · simp only [writeAt,List.length_append,List.length_take,List.length_drop]
    omega
  · rw [writeAt,List.append_assoc,List.getElem?_append,List.length_take,min_eq_left (by omega)]
    split_ifs with hlow
    · rw [List.getElem?_take,if_pos hlow]
    · rw [List.getElem?_append,if_neg (by omega),List.getElem?_drop]
      congr 1
      omega

theorem readAt_writeAt (h : offset + bytes.length ≤ memory.length) :
    readAt (writeAt memory offset bytes) offset bytes.length = bytes := by
  have hlen : (memory.take offset).length = offset := by
    rw [List.length_take]
    omega
  rw [readAt,writeAt,List.append_assoc,List.drop_left' hlen,List.take_left' rfl]

end Write

/-- The next multiple of an alignment. -/
def alignUp (position align : ℕ) : ℕ := (position + align - 1) / align * align

theorem le_alignUp {align : ℕ} (h : 0 < align) (position : ℕ) : position ≤ alignUp position align := by
  have hmod := Nat.div_add_mod' (position + align - 1) align
  have hlt := Nat.mod_lt (position + align - 1) h
  rw [alignUp]
  omega

/-- A type of values of a fixed size. -/
structure Codec (α : Type) where
  size : ℕ
  align : ℕ
  encode : α → Str
  decode : Str → α
  align_pos : 0 < align
  length_encode : ∀ a, (encode a).length = size
  decode_encode : ∀ a, decode (encode a) = a

structure Format (α : Type) where
  finish : ℕ → ℕ
  write : ℕ → α → Str → Str
  read : ℕ → Str → α
  le_finish : ∀ start, start ≤ finish start
  keeps : ∀ start a memory, finish start ≤ memory.length →
    Keeps start (finish start) memory (write start a memory)
  read_congr : ∀ start memory memory', Agree start (finish start) memory memory' →
    read start memory = read start memory'
  read_write : ∀ start a memory, finish start ≤ memory.length → read start (write start a memory) = a

namespace Format

/-- A single field. -/
def field (c : Codec α) : Format α where
  finish start := alignUp start c.align + c.size
  write start a memory := writeAt memory (alignUp start c.align) (c.encode a)
  read start memory := c.decode (readAt memory (alignUp start c.align) c.size)
  le_finish start := Nat.le_add_right_of_le (le_alignUp c.align_pos start)
  keeps start a memory h := by
    have hfits : alignUp start c.align + (c.encode a).length ≤ memory.length := by rwa [c.length_encode]
    have hk := keeps_writeAt hfits
    rw [c.length_encode] at hk
    exact hk.mono (le_alignUp c.align_pos start) le_rfl
  read_congr start memory memory' h := by
    have hle := le_alignUp c.align_pos start
    exact congrArg c.decode (readAt_congr fun i hi hi' => h i (by omega) hi')
  read_write start a memory h := by
    have hfits : alignUp start c.align + (c.encode a).length ≤ memory.length := by rwa [c.length_encode]
    have hr := readAt_writeAt hfits
    rw [c.length_encode] at hr
    rw [hr,c.decode_encode]

/-- Bytes that are never written. -/
def gap (size : ℕ) : Format Unit where
  finish start := start + size
  write _ _ memory := memory
  read _ _ := ()
  le_finish start := Nat.le_add_right start size
  keeps _ _ _ _ := ⟨rfl,fun _ _ => rfl⟩
  read_congr _ _ _ _ := rfl
  read_write _ _ _ _ := rfl

/-- One value behind another. -/
def seq (f : Format α) (g : Format β) : Format (α × β) where
  finish start := g.finish (f.finish start)
  write start ab memory := g.write (f.finish start) ab.2 (f.write start ab.1 memory)
  read start memory := (f.read start memory,g.read (f.finish start) memory)
  le_finish start := (f.le_finish start).trans (g.le_finish _)
  keeps start ab memory h := by
    have hf := f.keeps start ab.1 memory ((g.le_finish _).trans h)
    have hg := g.keeps (f.finish start) ab.2 (f.write start ab.1 memory) (by rwa [hf.length])
    exact (hf.mono le_rfl (g.le_finish _)).trans (hg.mono (f.le_finish _) le_rfl)
  read_congr start memory memory' h := by
    have hf := f.read_congr start memory memory' fun i hi hi' => h i hi (hi'.trans_le (g.le_finish _))
    have hg := g.read_congr _ memory memory' fun i hi hi' => h i ((f.le_finish _).trans hi) hi'
    rw [hf,hg]
  read_write start ab memory h := by
    have hf := f.keeps start ab.1 memory ((g.le_finish _).trans h)
    have hg := g.keeps (f.finish start) ab.2 (f.write start ab.1 memory) (by rwa [hf.length])
    -- the second value is written behind the first
    have hfirst := f.read_congr start _ _ fun i _ hi' => hg.outside i (Or.inl hi')
    rw [hfirst,f.read_write start ab.1 memory ((g.le_finish _).trans h),
      g.read_write _ ab.2 _ (by rwa [hf.length])]

/-- The same bytes as another type of values. -/
def map (f : Format α) (build : α → β) (fields : β → α) (h : ∀ b, build (fields b) = b) : Format β where
  finish := f.finish
  write start b memory := f.write start (fields b) memory
  read start memory := build (f.read start memory)
  le_finish := f.le_finish
  keeps start b memory hm := f.keeps start (fields b) memory hm
  read_congr start memory memory' hm := congrArg build (f.read_congr start memory memory' hm)
  read_write start b memory hm := (congrArg build (f.read_write start (fields b) memory hm)).trans (h b)

/-- How many bytes a structure takes that is aligned as its widest field. -/
def sizeOf (f : Format α) (align : ℕ) : ℕ := alignUp (f.finish 0) align

end Format

/-- The byte order of a machine. -/
inductive Endian where
  | little
  | big
deriving DecidableEq

def Endian.arrange : Endian → Str → Str
  | .little, bytes => bytes
  | .big, bytes => bytes.reverse

@[simp] theorem Endian.length_arrange (e : Endian) (bytes : Str) : (e.arrange bytes).length = bytes.length := by
  cases e <;> simp [arrange]

@[simp] theorem Endian.arrange_arrange (e : Endian) (bytes : Str) : e.arrange (e.arrange bytes) = bytes := by
  cases e <;> simp [arrange]

/-- The lowest digits of a number, the lowest one first. -/
def natBytes : ℕ → ℕ → Str
  | 0, _ => []
  | size + 1, n => n.toUInt8 :: natBytes size (n / 256)

def ofNatBytes : Str → ℕ
  | [] => 0
  | byte :: bytes => byte.toNat + 256 * ofNatBytes bytes

@[simp] theorem length_natBytes (size n : ℕ) : (natBytes size n).length = size := by
  induction size generalizing n with
  | zero => rfl
  | succ size ih => rw [natBytes,List.length_cons,ih]

theorem ofNatBytes_natBytes (size n : ℕ) : ofNatBytes (natBytes size n) = n % 256 ^ size := by
  induction size generalizing n with
  | zero => rw [natBytes,ofNatBytes,pow_zero,Nat.mod_one]
  | succ size ih =>
    have hbyte : n.toUInt8.toNat = n % 256 := UInt8.toNat_ofNat'
    rw [natBytes,ofNatBytes,ih,hbyte,pow_succ',Nat.mod_mul]

namespace Codec

/-- A machine word of the given size, which is also its alignment. -/
def word (e : Endian) (size : ℕ) (toNat : α → ℕ) (ofNat : ℕ → α) (hsize : 0 < size)
    (h : ∀ a, ofNat (toNat a % 256 ^ size) = a) : Codec α where
  size := size
  align := size
  encode a := e.arrange (natBytes size (toNat a))
  decode bytes := ofNat (ofNatBytes (e.arrange bytes))
  align_pos := hsize
  length_encode a := by rw [Endian.length_arrange,length_natBytes]
  decode_encode a := by rw [Endian.arrange_arrange,ofNatBytes_natBytes,h]

def u8 : Codec UInt8 := word .little 1 UInt8.toNat UInt8.ofNat (by decide) fun a => by
  rw [pow_one,Nat.mod_eq_of_lt a.toNat_lt,UInt8.ofNat_toNat]

def u32 (e : Endian) : Codec UInt32 := word e 4 UInt32.toNat UInt32.ofNat (by decide) fun a => by
  rw [show 256 ^ 4 = 2 ^ 32 by decide,Nat.mod_eq_of_lt a.toNat_lt,UInt32.ofNat_toNat]

def u64 (e : Endian) : Codec UInt64 := word e 8 UInt64.toNat UInt64.ofNat (by decide) fun a => by
  rw [show 256 ^ 8 = 2 ^ 64 by decide,Nat.mod_eq_of_lt a.toNat_lt,UInt64.ofNat_toNat]

/-- Signed words have the bits of the unsigned ones. -/
def i32 (e : Endian) : Codec Int32 where
  size := 4
  align := 4
  encode a := (u32 e).encode a.toUInt32
  decode bytes := ((u32 e).decode bytes).toInt32
  align_pos := by decide
  length_encode a := (u32 e).length_encode a.toUInt32
  decode_encode a := by rw [(u32 e).decode_encode]; rfl

/-- An array of bytes. -/
def byteArray (size : ℕ) : Codec (Vector UInt8 size) where
  size := size
  align := 1
  encode a := a.toList
  decode bytes := Vector.ofFn fun i => bytes.getD i 0
  align_pos := by decide
  length_encode a := Vector.length_toList
  decode_encode a := by
    ext i hi
    simp [List.getD_eq_getElem?_getD]

end Codec

end Repx.RecordLayout
