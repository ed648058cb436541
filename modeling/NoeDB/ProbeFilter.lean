import Mathlib.Data.List.Basic

/-! A filter that remembers elements by the bits that their probes set: an element that
was inserted is never reported as absent. -/
namespace NoeDB.ProbeFilter

def mask (idx : Nat) : UInt8 := 1 <<< UInt8.ofNat (idx%8)

def getBit (bits : List UInt8) (idx : Nat) : Bool :=
  match bits[idx/8]? with
  | some byte => byte &&& mask idx != 0
  | none => false

def setBit (bits : List UInt8) (idx : Nat) : List UInt8 := bits.modify (idx/8) fun byte => byte ||| mask idx

theorem maskNonzero (idx) : mask idx ≠ 0 := by
  have small : idx%8 < 8 := Nat.mod_lt _ (by decide)
  have all : ∀ i < 8, (1 : UInt8) <<< UInt8.ofNat i ≠ 0 := by decide
  exact all _ small

theorem orAndSelf (byte m : UInt8) : (byte ||| m) &&& m = m := by
  apply UInt8.toBitVec_inj.mp
  ext i
  simpa using Or.inr

theorem orAndKept (set : byte &&& m ≠ 0) (more : UInt8) : (byte ||| more) &&& m ≠ 0 := by
  intro clear
  apply set
  have all : byte &&& ((byte ||| more) &&& m) = byte &&& m := by
    apply UInt8.toBitVec_inj.mp
    ext i
    simp only [UInt8.toBitVec_and,UInt8.toBitVec_or,BitVec.getElem_and,BitVec.getElem_or]
    cases byte.toBitVec[i] <;> simp
  rw [← all,clear]
  simp

@[simp] theorem setBitLength (bits idx) : (setBit bits idx).length = bits.length := List.length_modify _ _ _

theorem getSetBit (inside : idx/8 < bits.length) : getBit (setBit bits idx) idx = true := by
  have found : bits[idx/8]? = some bits[idx/8] := List.getElem?_eq_getElem inside
  rw [getBit,setBit,List.getElem?_modify_eq,found]
  simpa [orAndSelf] using maskNonzero idx

theorem setBitKeeps (set : getBit bits other = true) (idx : Nat) : getBit (setBit bits idx) other = true := by
  unfold getBit at set ⊢
  by_cases same : idx/8 = other/8
  · rw [setBit,same,List.getElem?_modify_eq]
    cases found : bits[other/8]? with
    | none => simp [found] at set
    | some =>
      simp only [found,bne_iff_ne] at set
      simpa using orAndKept set (mask idx)
  · rw [setBit,List.getElem?_modify_ne _ _ same]
    exact set

section
variable {κ : Type} (probes : κ → List Nat)

def insert (bits : List UInt8) (key : κ) : List UInt8 := (probes key).foldl setBit bits

def insertAll (bits : List UInt8) (keys : List κ) : List UInt8 := keys.foldl (insert probes) bits

def mayContain (bits : List UInt8) (key : κ) : Bool := (probes key).all (getBit bits)

theorem setAllLength (indices : List Nat) (bits) : (indices.foldl setBit bits).length = bits.length := by
  induction indices generalizing bits with
  | nil => rfl
  | cons _ _ ih => simp [ih]

theorem setAllKeeps (set : getBit bits other = true) (indices : List Nat) :
    getBit (indices.foldl setBit bits) other = true := by
  induction indices generalizing bits with
  | nil => exact set
  | cons i _ ih => exact ih (setBitKeeps set i)

theorem setAllSets {indices : List Nat} (mem : i ∈ indices) (inside : i/8 < bits.length) :
    getBit (indices.foldl setBit bits) i = true := by
  induction indices generalizing bits with
  | nil => cases mem
  | cons _ rest ih =>
    rcases List.mem_cons.mp mem with rfl | later
    · exact setAllKeeps (getSetBit inside) rest
    · exact ih later (by simpa using inside)

@[simp] theorem insertAllLength (keys : List κ) (bits) : (insertAll probes bits keys).length = bits.length := by
  induction keys generalizing bits with
  | nil => rfl
  | cons _ _ ih => exact (ih _).trans (setAllLength _ _)

theorem insertAllKeeps (set : getBit bits i = true) (keys : List κ) :
    getBit (insertAll probes bits keys) i = true := by
  induction keys generalizing bits with
  | nil => exact set
  | cons _ _ ih => exact ih (setAllKeeps set _)

theorem noFalseNegative {keys : List κ} (mem : key ∈ keys)
    (inside : ∀ i ∈ probes key, i/8 < bits.length) : mayContain probes (insertAll probes bits keys) key = true := by
  refine List.all_eq_true.mpr fun i probe => ?_
  induction keys generalizing bits with
  | nil => cases mem
  | cons _ rest ih =>
    rcases List.mem_cons.mp mem with rfl | later
    · exact insertAllKeeps probes (setAllSets probe (inside i probe)) rest
    · refine ih later fun j mem' => ?_
      rw [ProbeFilter.insert,setAllLength]
      exact inside j mem'

end
end NoeDB.ProbeFilter
