import NoeDB.ByteString

/-! SHA-256 (FIPS 180-4) over lists of bytes. -/
namespace NoeDB.Sha256
open ByteString

structure Words where
  a : UInt32
  b : UInt32
  c : UInt32
  d : UInt32
  e : UInt32
  f : UInt32
  g : UInt32
  h : UInt32
  deriving DecidableEq, Repr

def initial : Words :=
  ⟨0x6a09e667,0xbb67ae85,0x3c6ef372,0xa54ff53a,0x510e527f,0x9b05688c,0x1f83d9ab,0x5be0cd19⟩

def constants : List UInt32 :=
  [0x428a2f98,0x71374491,0xb5c0fbcf,0xe9b5dba5,0x3956c25b,0x59f111f1,0x923f82a4,0xab1c5ed5,
   0xd807aa98,0x12835b01,0x243185be,0x550c7dc3,0x72be5d74,0x80deb1fe,0x9bdc06a7,0xc19bf174,
   0xe49b69c1,0xefbe4786,0x0fc19dc6,0x240ca1cc,0x2de92c6f,0x4a7484aa,0x5cb0a9dc,0x76f988da,
   0x983e5152,0xa831c66d,0xb00327c8,0xbf597fc7,0xc6e00bf3,0xd5a79147,0x06ca6351,0x14292967,
   0x27b70a85,0x2e1b2138,0x4d2c6dfc,0x53380d13,0x650a7354,0x766a0abb,0x81c2c92e,0x92722c85,
   0xa2bfe8a1,0xa81a664b,0xc24b8b70,0xc76c51a3,0xd192e819,0xd6990624,0xf40e3585,0x106aa070,
   0x19a4c116,0x1e376c08,0x2748774c,0x34b0bcb5,0x391c0cb3,0x4ed8aa4a,0x5b9cca4f,0x682e6ff3,
   0x748f82ee,0x78a5636f,0x84c87814,0x8cc70208,0x90befffa,0xa4506ceb,0xbef9a3f7,0xc67178f2]

def rotr (n : UInt32) (x : UInt32) : UInt32 := (x >>> n) ||| (x <<< (32-n))

def smallSigma0 (x : UInt32) : UInt32 := rotr 7 x ^^^ rotr 18 x ^^^ (x >>> 3)
def smallSigma1 (x : UInt32) : UInt32 := rotr 17 x ^^^ rotr 19 x ^^^ (x >>> 10)
def bigSigma0 (x : UInt32) : UInt32 := rotr 2 x ^^^ rotr 13 x ^^^ rotr 22 x
def bigSigma1 (x : UInt32) : UInt32 := rotr 6 x ^^^ rotr 11 x ^^^ rotr 25 x
def choose (x y z : UInt32) : UInt32 := (x &&& y) ^^^ (~~~x &&& z)
def majority (x y z : UInt32) : UInt32 := (x &&& y) ^^^ (x &&& z) ^^^ (y &&& z)

def advance (window : List UInt32) : List UInt32 :=
  window.drop 1 ++ [smallSigma1 (window.getD 14 0)+window.getD 9 0+smallSigma0 (window.getD 1 0)+window.getD 0 0]

def round (state : Words × List UInt32) (constant : UInt32) : Words × List UInt32 :=
  let (w,window) := state
  let t1 := w.h+bigSigma1 w.e+choose w.e w.f w.g+constant+window.getD 0 0
  let t2 := bigSigma0 w.a+majority w.a w.b w.c
  (⟨t1+t2,w.a,w.b,w.c,w.d+t1,w.e,w.f,w.g⟩,advance window)

def Words.add (x y : Words) : Words :=
  ⟨x.a+y.a,x.b+y.b,x.c+y.c,x.d+y.d,x.e+y.e,x.f+y.f,x.g+y.g,x.h+y.h⟩

def wordsOf : Nat → Bytes → List UInt32
  | 0,_ => []
  | n+1,bytes => UInt32.ofNat (ofLeBytes (bytes.take 4).reverse) :: wordsOf n (bytes.drop 4)

def compress (state : Words) (block : Bytes) : Words :=
  state.add (constants.foldl round (state,wordsOf 16 block)).1

def pad (data : Bytes) : Bytes :=
  data ++ (0x80 :: (List.replicate ((119-data.length%64)%64) 0 ++ beBytes 8 (8*data.length)))

def compressAll : Nat → Words → Bytes → Words
  | 0,state,_ => state
  | n+1,state,data => compressAll n (compress state (data.take 64)) (data.drop 64)

def Words.bytes (w : Words) : Bytes :=
  [w.a,w.b,w.c,w.d,w.e,w.f,w.g,w.h].flatMap fun word => beBytes 4 word.toNat

def sha256 (data : Bytes) : Bytes :=
  (compressAll ((pad data).length/64) initial (pad data)).bytes

@[simp] theorem sha256Length (data) : (sha256 data).length = 32 := by
  simp [sha256,Words.bytes,beBytes]

example : sha256 [97,98,99] =
    [0xba,0x78,0x16,0xbf,0x8f,0x01,0xcf,0xea,0x41,0x41,0x40,0xde,0x5d,0xae,0x22,0x23,
     0xb0,0x03,0x61,0xa3,0x96,0x17,0x7a,0x9c,0xb4,0x10,0xff,0x61,0xf2,0x00,0x15,0xad] := by decide +kernel

end NoeDB.Sha256
