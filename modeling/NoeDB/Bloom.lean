import NoeDB.Checksum
import NoeDB.ProbeFilter
import NoeDB.StorageTypes

/-! The Bloom filter of a table file (bloom.rs). Its size and number of probes are
computed in floating point from the number of keys; here they are parameters. -/
namespace NoeDB.Bloom
open ByteString StorageTypes Checksum ProbeFilter

structure BloomFilter where
  bits : Bytes
  m : UInt32
  k : UInt32
  deriving DecidableEq, Repr

def hashPair (key : Bytes) : UInt32 × UInt32 :=
  let h1 := crc32 key
  (h1,crc32 (leBytes 4 h1.toNat ++ key) ||| 1)

def doubleHash (h1 h2 i m : UInt32) : UInt32 := (h1+i*h2)%m

def probes (m k : UInt32) (key : Bytes) : List Nat :=
  (List.range k.toNat).map fun i => (doubleHash (hashPair key).1 (hashPair key).2 (UInt32.ofNat i) m).toNat

namespace BloomFilter

def build (m k : UInt32) (keys : List Bytes) : BloomFilter :=
  ⟨insertAll (probes m k) (List.replicate ((m.toNat+7)/8) 0) keys,m,k⟩

/- A probe of a filter without bits divides by zero. -/
def insert (filter : BloomFilter) (key : Bytes) : Except Fault BloomFilter :=
  if filter.m = 0 ∧ 0 < filter.k then .error .panicked
  else .ok {filter with bits := ProbeFilter.insert (probes filter.m filter.k) filter.bits key}

def mayContain (filter : BloomFilter) (key : Bytes) : Except Fault Bool :=
  if filter.m = 0 ∧ 0 < filter.k then .error .panicked
  else .ok (ProbeFilter.mayContain (probes filter.m filter.k) filter.bits key)

def encode (filter : BloomFilter) : Bytes :=
  leBytes 4 filter.m.toNat ++ (filter.k.toUInt8 :: 0 :: 0 :: 0 :: filter.bits)

def decode (data : Bytes) : Except Fault BloomFilter :=
  if data.length < 8 then .error (.error (.corruptSstable "truncated bloom filter"))
  else .ok ⟨data.drop 8,UInt32.ofNat (ofLeBytes (slice data 0 4)),(data.getD 4 0).toUInt32⟩

@[simp] theorem encodeLength (filter : BloomFilter) : filter.encode.length = 8+filter.bits.length := by
  simp [encode]
  omega

theorem buildLength (m k keys) : (build m k keys).bits.length = (m.toNat+7)/8 := by
  simp [build]

theorem decodeEncode (few : filter.k < 256) : decode filter.encode = .ok filter := by
  have long : ¬filter.encode.length < 8 := by
    rw [encodeLength]
    omega
  have size : slice filter.encode 0 4 = leBytes 4 filter.m.toNat := sliceHead rfl (by simp)
  have bits : filter.encode.drop 8 = filter.bits := by
    have split : filter.encode = (leBytes 4 filter.m.toNat ++ [filter.k.toUInt8,0,0,0]) ++ filter.bits := by
      simp [encode]
    rw [split]
    exact List.drop_left' (by simp)
  have count : (filter.encode.getD 4 0).toUInt32 = filter.k := by
    have at4 : filter.encode.getD 4 0 = filter.k.toUInt8 := by
      simp [encode,List.getD_eq_getElem?_getD]
    rw [at4]
    apply UInt32.toNat_inj.mp
    rw [UInt8.toNat_toUInt32,UInt32.toNat_toUInt8]
    exact Nat.mod_eq_of_lt (UInt32.lt_iff_toNat_lt.mp few)
  have written : ofLeBytes (leBytes 4 filter.m.toNat) = filter.m.toNat := ofLeBytesWritten filter.m.toNat_lt
  rw [decode,if_neg long,size,bits,count,written,UInt32.ofNat_toNat]

theorem probesInside {m i} (positive : m ≠ 0) {k key} (probe : i ∈ probes m k key) : i/8 < (m.toNat+7)/8 := by
  obtain ⟨n,-,rfl⟩ := List.mem_map.mp probe
  have bound : (doubleHash (hashPair key).1 (hashPair key).2 (UInt32.ofNat n) m).toNat < m.toNat := by
    rw [doubleHash,UInt32.toNat_mod]
    refine Nat.mod_lt _ (Nat.pos_of_ne_zero fun zero => positive ?_)
    exact UInt32.toNat_inj.mp zero
  omega

theorem buildAnswers {m} (positive : m ≠ 0) (k keys key) :
    ∃ answer, (build m k keys).mayContain key = .ok answer ∧ (key ∈ keys → answer = true) := by
  refine ⟨_,if_neg fun zero => positive zero.1,fun mem => noFalseNegative _ mem fun i probe => ?_⟩
  rw [List.length_replicate]
  exact probesInside positive probe

theorem insertRuns {filter : BloomFilter} (positive : filter.m ≠ 0) (keys : List Bytes) : keys.foldlM insert filter =
      .ok {filter with bits := insertAll (probes filter.m filter.k) filter.bits keys} := by
  induction keys generalizing filter with
  | nil => rfl
  | cons key _ ih =>
    have first : insert filter key = .ok _ := if_neg fun zero => positive zero.1
    rw [List.foldlM_cons,first]
    exact ih positive

theorem insertedFound (filter : BloomFilter) (positive : 1 ≤ filter.m) (few : 1 ≤ filter.k ∧ filter.k ≤ 255)
    (sized : filter.bits.length = (filter.m.toNat+7)/8) (keys : List Bytes) :
    ∃ full, keys.foldlM insert filter = .ok full ∧ ∃ back, decode full.encode = .ok back ∧
      ∀ key ∈ keys, full.mayContain key = .ok true ∧ back.mayContain key = .ok true := by
  have nonzero : filter.m ≠ 0 := fun zero => absurd positive (by rw [zero]; decide)
  have small : filter.k < 256 := UInt32.lt_of_le_of_lt few.2 (by decide)
  refine ⟨_,insertRuns nonzero keys,_,decodeEncode small,fun key mem => ?_⟩
  have found := noFalseNegative (probes filter.m filter.k) mem fun i probe => sized ▸ probesInside nonzero probe
  have answer : mayContain {filter with bits := insertAll (probes filter.m filter.k) filter.bits keys} key = .ok true := by
    rw [mayContain,if_neg fun zero => nonzero zero.1,found]
  exact ⟨answer,answer⟩

theorem pairFound : ∃ full, [[107],[108]].foldlM insert ⟨[0,0],9,3⟩ = .ok full ∧ ∃ back, decode full.encode = .ok back ∧
      ∀ key ∈ [[107],[108]], full.mayContain key = .ok true ∧ back.mayContain key = .ok true :=
  insertedFound ⟨[0,0],9,3⟩ (by decide) (by decide) rfl _

end BloomFilter
end NoeDB.Bloom
