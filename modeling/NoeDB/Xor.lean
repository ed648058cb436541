import NoeDB.Checksum
import NoeDB.StorageTypes

/-! The filter with two places per key (xor_filter.rs). A key writes its fingerprint to both
of its places, and so does every later key that shares one. -/
namespace NoeDB.Xor
open ByteString StorageTypes Checksum List

def fingerprint (key : Bytes) : UInt16 :=
  let h := crc32 key
  let fp := (h >>> 16).toUInt16 ^^^ h.toUInt16
  if fp = 0 then 1 else fp

/- Both hashes are masked with the size less one, so that the places are below the size. -/
def locations (key : Bytes) (size : UInt32) (seed : UInt64) : Nat × Nat :=
  let mask := size.toNat-1
  ((crc32 key).toNat &&& mask,(crc32 (key ++ leBytes 8 seed.toNat)).toNat &&& mask)

def nextPow2 (n : UInt32) : Except Fault UInt32 :=
  if n ≤ 1 then .ok 1
  else
    let n := n-1
    let n := n ||| n >>> 1
    let n := n ||| n >>> 2
    let n := n ||| n >>> 4
    let n := n ||| n >>> 8
    let n := n ||| n >>> 16
    if n+1 = 0 then .error .panicked else .ok (n+1)

structure XorFilter where
  slots : List UInt16
  size : UInt32
  seed : UInt64

namespace XorFilter

def insert (filter : XorFilter) (key : Bytes) : XorFilter :=
  let fp := fingerprint key
  let (i0,i1) := locations key filter.size filter.seed
  {filter with slots := (filter.slots.set i0 fp).set i1 fp}

def mayContain (filter : XorFilter) (key : Bytes) : Bool :=
  let fp := fingerprint key
  let (i0,i1) := locations key filter.size filter.seed
  filter.slots[i0]? = some fp ∨ filter.slots[i1]? = some fp

def empty (size : UInt32) : XorFilter := ⟨List.replicate size.toNat 0,size,0x9E3779B97F4A7C15⟩

def insertChecked : XorFilter → List Bytes → Option XorFilter
  | filter,[] => some filter
  | filter,key :: rest =>
      let filter := filter.insert key
      if filter.mayContain key then insertChecked filter rest else none

def maxSize : UInt32 := 1048576

/- The size doubles up to 2^20, so that 32 rounds are more than the loop can take. -/
def buildLoop (keys : List Bytes) : Nat → UInt32 → Except Fault XorFilter
  | 0,_ => .error .panicked
  | fuel+1,size =>
      match insertChecked (empty size) keys with
      | some filter => .ok filter
      | none =>
          let size := min (UInt32.ofNat (min (size.toNat*2) (2^32-1))) maxSize
          if maxSize ≤ size then .ok (keys.foldl insert (empty maxSize)) else buildLoop keys fuel size

def requested (keys : List Bytes) (expectedKeys : Nat) : UInt32 :=
  max (UInt32.ofNat (min (max (max keys.length expectedKeys) 1*4) (2^32-1))) 256

def build (keys : List Bytes) (expectedKeys : Nat) : Except Fault XorFilter :=
  match nextPow2 (requested keys expectedKeys) with
  | .error fault => .error fault
  | .ok size => buildLoop keys 32 size

end XorFilter

def places (size : UInt32) (key : Bytes) : List Nat :=
  [(locations key size 0x9E3779B97F4A7C15).1,(locations key size 0x9E3779B97F4A7C15).2]

def lastAt (size : UInt32) (keys : List Bytes) (place : Nat) : Option Bytes :=
  keys.reverse.find? fun k => place ∈ places size k

theorem nextPow2Positive (ok : nextPow2 n = .ok size) : 0 < size.toNat := by
  unfold nextPow2 at ok
  split at ok
  · cases ok
    decide
  · simp only at ok
    split at ok
    · cases ok
    · rename_i nonzero
      cases ok
      exact Nat.pos_of_ne_zero fun zero => nonzero (UInt32.toNat_inj.mp zero)

section
variable {size : UInt32} {keys : List Bytes} {filter : XorFilter}

theorem placesBelow (positive : 0 < size.toNat) (mem : place ∈ places size key) : place < size.toNat := by
  simp only [places,locations,mem_cons,not_mem_nil,or_false] at mem
  rcases mem with rfl | rfl
  all_goals exact Nat.lt_of_le_of_lt Nat.and_le_right (by omega)

structure Filled (size : UInt32) (keys : List Bytes) (filter : XorFilter) : Prop where
  sized : filter.size = size
  seed : filter.seed = 0x9E3779B97F4A7C15
  length : filter.slots.length = size.toNat
  slots : ∀ place < size.toNat, filter.slots[place]? = some (((lastAt size keys place).map fingerprint).getD 0)

theorem filledEmpty : Filled size [] (.empty size) :=
  ⟨rfl,rfl,length_replicate,fun place inside => by simp [XorFilter.empty,lastAt,inside]⟩

theorem filledInsert (filled : Filled size keys filter) (key) : Filled size (keys ++ [key]) (filter.insert key) := by
  refine ⟨filled.sized,filled.seed,by simp [XorFilter.insert,filled.length],fun place inside => ?_⟩
  have last : lastAt size (keys ++ [key]) place =
      if place ∈ places size key then some key else lastAt size keys place := by
    simp only [lastAt,reverse_append,reverse_cons,reverse_nil,nil_append,singleton_append,List.find?_cons]
    split_ifs with own <;> simp [own]
  simp only [XorFilter.insert,filled.sized,filled.seed,last,List.getElem?_set,length_set,filled.length,
    filled.slots place inside,places,mem_cons,not_mem_nil,or_false,eq_comm (a := place)]
  split_ifs <;> simp_all

theorem filledContains (filled : Filled size keys filter) (positive : 0 < size.toNat) (key) :
    filter.mayContain key = true ↔ ∃ place ∈ places size key,
      ((lastAt size keys place).map fingerprint).getD 0 = fingerprint key := by
  have held : ∀ place ∈ places size key, _ := fun place mem => filled.slots place (placesBelow positive mem)
  simp only [places,mem_cons,not_mem_nil,or_false,forall_eq_or_imp,forall_eq] at held
  simp [XorFilter.mayContain,filled.sized,filled.seed,held,places]

/- The check after an insertion is about the key that was just written. -/
theorem insertCheckedAll (filled : Filled size keys filter) (positive : 0 < size.toNat) (more) :
    ∃ full, filter.insertChecked more = some full ∧ Filled size (keys ++ more) full := by
  induction more generalizing keys filter with
  | nil => exact ⟨filter,rfl,by rwa [append_nil]⟩
  | cons key _ ih =>
    have next := filledInsert filled key
    have found : (filter.insert key).mayContain key = true := by
      refine (filledContains next positive key).mpr ⟨_,mem_cons_self,?_⟩
      simp [lastAt,places]
    obtain ⟨full,done,all⟩ := ih next
    rw [append_assoc,singleton_append] at all
    exact ⟨full,by rw [XorFilter.insertChecked,if_pos found,done],all⟩

end

def Survives (size : UInt32) (keys : List Bytes) (key : Bytes) : Prop :=
  ∃ place ∈ places size key, (lastAt size keys place).map fingerprint = some (fingerprint key)

theorem keysFoundIff (keys : List Bytes) (expectedKeys : Nat) :
    (∃ filter, XorFilter.build keys expectedKeys = .ok filter ∧ ∀ key ∈ keys, filter.mayContain key = true) ↔
      ∃ size, nextPow2 (XorFilter.requested keys expectedKeys) = .ok size ∧ ∀ key ∈ keys, Survives size keys key := by
  unfold XorFilter.build
  cases sized : nextPow2 (XorFilter.requested keys expectedKeys) with
  | error => simp
  | ok size =>
    have positive := nextPow2Positive sized
    obtain ⟨_,done,filled⟩ := insertCheckedAll filledEmpty positive keys
    simp only [XorFilter.buildLoop,done,Except.ok.injEq,exists_eq_left',filledContains filled positive,Survives]
    refine forall_congr' fun key => forall_congr' fun mem => exists_congr fun place => and_congr_right fun own => ?_
    have written : (lastAt size keys place).isSome := by
      rw [lastAt,find?_isSome]
      exact ⟨key,mem_reverse.mpr mem,by simpa using own⟩
    obtain ⟨_,found⟩ := Option.isSome_iff_exists.mp written
    simp [found]

/- "d" and "ly" have the same two places of 256. -/
theorem laterKeyErases : ∃ filter, XorFilter.build [[100],[108,121]] 2 = .ok filter ∧
    filter.mayContain [100] = false := by
  have answer : (XorFilter.build [[100],[108,121]] 2).map (·.mayContain [100]) = .ok false := by decide +kernel
  cases built : XorFilter.build [[100],[108,121]] 2 with
  | error => cases built ▸ answer
  | ok filter => exact ⟨filter,rfl,Except.ok.inj (built ▸ answer)⟩

end NoeDB.Xor
