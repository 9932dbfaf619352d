/-!
# BLAKE3

The plain hash of BLAKE3. The input is cut into chunks of 1024 bytes and each chunk into blocks of 64
bytes, which are compressed one after the other; the chunks are the leaves of a binary tree whose left
subtrees are complete.
-/
namespace Css.Blake3

def initial : List UInt32 :=
  [0x6A09E667,0xBB67AE85,0x3C6EF372,0xA54FF53A,0x510E527F,0x9B05688C,0x1F83D9AB,0x5BE0CD19]

def permutation : List Nat :=
  [2,6,3,10,7,0,4,13,1,11,12,5,9,14,15,8]

def chunkStart : UInt32 := 1
def chunkEnd : UInt32 := 2
def parent : UInt32 := 4
def root : UInt32 := 8

def rotateRight (x : UInt32) (n : UInt32) : UInt32 :=
  (x >>> n) ||| (x <<< (32 - n))

def word (v : Array UInt32) (i : Nat) : UInt32 :=
  v.getD i 0

def mix (v : Array UInt32) (a b c d : Nat) (x y : UInt32) : Array UInt32 :=
  let va := word v a + word v b + x
  let vd := rotateRight (word v d ^^^ va) 16
  let vc := word v c + vd
  let vb := rotateRight (word v b ^^^ vc) 12
  let va := va + vb + y
  let vd := rotateRight (vd ^^^ va) 8
  let vc := vc + vd
  let vb := rotateRight (vb ^^^ vc) 7
  (((v.setIfInBounds a va).setIfInBounds b vb).setIfInBounds c vc).setIfInBounds d vd

def steps : List (Nat × Nat × Nat × Nat × Nat) :=
  [(0, 4, 8, 12, 0),(1, 5, 9, 13, 2),(2, 6, 10, 14, 4),(3, 7, 11, 15, 6),
   (0, 5, 10, 15, 8),(1, 6, 11, 12, 10),(2, 7, 8, 13, 12),(3, 4, 9, 14, 14)]

def round (v m : Array UInt32) : Array UInt32 :=
  steps.foldl (fun v (a, b, c, d, i) => mix v a b c d (word m i) (word m (i + 1))) v

def permute (m : Array UInt32) : Array UInt32 :=
  (permutation.map (word m)).toArray

def rounds : Nat → Array UInt32 → Array UInt32 → Array UInt32
  | 0, v, _ => v
  | n + 1, v, m => rounds n (round v m) (permute m)

def compress (chaining : List UInt32) (block : Array UInt32) (counter length : Nat)
    (flags : UInt32) : List UInt32 :=
  let tail := [UInt32.ofNat counter,UInt32.ofNat (counter / 0x100000000),UInt32.ofNat length,flags]
  let v := rounds 7 (chaining ++ initial.take 4 ++ tail).toArray block
  (List.range 8).map fun i => word v i ^^^ word v (i + 8)

def wordOfBytes (bytes : List UInt8) : UInt32 :=
  bytes.foldr (fun b w => w <<< 8 ||| b.toUInt32) 0

def bytesOfWord (w : UInt32) : List UInt8 :=
  [w.toUInt8,(w >>> 8).toUInt8,(w >>> 16).toUInt8,(w >>> 24).toUInt8]

def blockWords (bytes : List UInt8) : Array UInt32 :=
  ((List.range 16).map fun i => wordOfBytes ((bytes.drop (4 * i)).take 4)).toArray

structure Pending where
  chaining : List UInt32
  block : Array UInt32
  counter : Nat
  length : Nat
  flags : UInt32

def Pending.words (p : Pending) (flag : UInt32) : List UInt32 :=
  compress p.chaining p.block p.counter p.length (p.flags ||| flag)

def chunkFrom (counter : Nat) (chaining : List UInt32) (start : UInt32) (bytes : List UInt8) :
    Pending :=
  if 64 < bytes.length then
    chunkFrom counter (compress chaining (blockWords (bytes.take 64)) counter 64 start) 0
      (bytes.drop 64)
  else ⟨chaining,blockWords bytes,counter,bytes.length,start ||| chunkEnd⟩
termination_by bytes.length
decreasing_by simp only [List.length_drop]; omega

def chunk (counter : Nat) (bytes : List UInt8) : Pending :=
  chunkFrom counter initial chunkStart bytes

/-- The number of bytes that go into the left subtree of a tree over `n` bytes: the largest power
of two of whole chunks that leaves something for the right one. -/
def leftLength (n : Nat) : Nat :=
  1024 <<< ((n - 1) / 1024).log2

theorem leftLength_lt {n : Nat} (h : 1024 < n) : leftLength n < n := by
  have hc : (n - 1) / 1024 ≠ 0 := by
    have := Nat.div_le_div_right (c := 1024) (show 1024 ≤ n - 1 by omega)
    omega
  have hp : 2 ^ ((n - 1) / 1024).log2 ≤ (n - 1) / 1024 := Nat.log2_self_le hc
  have hm := Nat.div_mul_le_self (n - 1) 1024
  rw [leftLength,Nat.shiftLeft_eq]
  omega

theorem leftLength_pos (n : Nat) : 0 < leftLength n := by
  rw [leftLength,Nat.shiftLeft_eq]
  exact Nat.mul_pos (by decide) (Nat.two_pow_pos _)

def tree (counter : Nat) (bytes : List UInt8) : Pending :=
  if 1024 < bytes.length then
    let size := leftLength bytes.length
    let left := (tree counter (bytes.take size)).words 0
    let right := (tree (counter + size / 1024) (bytes.drop size)).words 0
    ⟨initial,(left ++ right).toArray,0,64,parent⟩
  else chunk counter bytes
termination_by bytes.length
decreasing_by
  · simp only [List.length_take]
    have := leftLength_lt ‹1024 < bytes.length›
    omega
  · simp only [List.length_drop]
    have := leftLength_pos bytes.length
    omega

def hash (bytes : List UInt8) : List UInt8 :=
  ((tree 0 bytes).words root).flatMap bytesOfWord

def hexDigest (text : String) : List Char :=
  (hash text.toUTF8.toList).flatMap fun b =>
    [Nat.digitChar (b.toNat / 16),Nat.digitChar (b.toNat % 16)]

end Css.Blake3
