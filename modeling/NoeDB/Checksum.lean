import NoeDB.ByteString

/-! CRC-32 (IEEE) over bytes (checksum.rs). One bit step is linear in exclusive or and loses
nothing, so that bytes that differ in a window of four have different sums. -/
namespace NoeDB.Checksum
open ByteString Function List UInt32 Nat

def poly : UInt32 := 0xEDB88320

def bitStep (state : UInt32) : UInt32 := (state >>> 1) ^^^ (poly &&& (0 - (state &&& 1)))

def bitSteps : Nat → UInt32 → UInt32
  | 0,state => state
  | n+1,state => bitSteps n (bitStep state)

def update (state : UInt32) (data : Bytes) : UInt32 :=
  data.foldl (fun state byte => bitSteps 8 (state ^^^ byte.toUInt32)) state

def crc32 (data : Bytes) : UInt32 := ~~~(update 0xFFFFFFFF data)

theorem bitStepBit (x) (inside : i < 32) : (bitStep x).toBitVec.getLsbD i =
    (x.toBitVec.getLsbD (i+1) ^^ (poly.toBitVec.getLsbD i && x.toBitVec.getLsbD 0)) := by
  have mask : (0-(x &&& 1)).toBitVec.getLsbD i = x.toBitVec.getLsbD 0 := by
    rw [UInt32.toBitVec_sub,UInt32.toBitVec_and,UInt32.toBitVec_one,BitVec.and_one_eq_setWidth_ofBool_getLsbD]
    cases x.toBitVec.getLsbD 0
    · simp
    · exact (@BitVec.getLsbD_allOnes 32 i).trans (decide_eq_true inside)
  have moved : (x >>> 1).toBitVec.getLsbD i = x.toBitVec.getLsbD (i+1) := by
    rw [add_comm]
    exact BitVec.getLsbD_ushiftRight ..
  rw [bitStep,UInt32.toBitVec_xor,BitVec.getLsbD_xor,moved,UInt32.toBitVec_and,BitVec.getLsbD_and,mask]

theorem bitStepXor (x y) : bitStep (x ^^^ y) = bitStep x ^^^ bitStep y := by
  apply UInt32.toBitVec_inj.mp
  apply BitVec.eq_of_getLsbD_eq
  intro i inside
  simp only [UInt32.toBitVec_xor,BitVec.getLsbD_xor,bitStepBit _ inside]
  cases poly.toBitVec.getLsbD i <;> simp [Bool.xor_left_comm]

/- The highest bit of the polynomial tells the bit that was shifted out. -/
theorem bitStepInj : Injective bitStep := by
  intro x y same
  have bits : ∀ i < 32, (bitStep x).toBitVec.getLsbD i = (bitStep y).toBitVec.getLsbD i := fun i _ => by rw [same]
  have low : x.toBitVec.getLsbD 0 = y.toBitVec.getLsbD 0 := by
    have last := bits 31 (by decide)
    rwa [bitStepBit x (by decide),bitStepBit y (by decide),BitVec.getLsbD_of_ge x.toBitVec _ (by decide),
      BitVec.getLsbD_of_ge y.toBitVec _ (by decide),Bool.false_xor,Bool.false_xor] at last
  apply UInt32.toBitVec_inj.mp
  apply BitVec.eq_of_getLsbD_eq
  intro i _
  cases i with
  | zero => exact low
  | succ i =>
    have here := bits i (by omega)
    rw [bitStepBit x (by omega),bitStepBit y (by omega),low] at here
    exact Bool.xor_left_inj.mp here

theorem bitStepsXor (n x y) : bitSteps n (x ^^^ y) = bitSteps n x ^^^ bitSteps n y := by
  induction n generalizing x y with
  | zero => rfl
  | succ _ ih => rw [bitSteps,bitStepXor,ih,bitSteps,bitSteps]

theorem bitStepsInj (n) : Injective (bitSteps n) := by
  induction n with
  | zero => exact injective_id
  | succ _ ih => exact ih.comp bitStepInj

theorem bitStepsAdd (n m x) : bitSteps (n+m) x = bitSteps m (bitSteps n x) := by
  induction n generalizing x with
  | zero => rw [zero_add,bitSteps]
  | succ _ ih => rw [succ_add,bitSteps,bitSteps,ih]

theorem bitStepsShift (n) (fits : 2^n*m < 2^32) : bitSteps n (ofNat (2^n*m)) = ofNat m := by
  induction n with
  | zero => rw [Nat.pow_zero,Nat.one_mul,bitSteps]
  | succ n ih =>
    have even : 2^(n+1)*m = 2*(2^n*m) := by rw [pow_succ,mul_comm (2^n) 2,mul_assoc]
    rw [even] at fits ⊢
    generalize 2^n*m = k at *
    have written : (ofNat (2*k)).toNat = 2*k := toNat_ofNat_of_lt' fits
    have clear : ofNat (2*k) &&& 1 = 0 := by
      apply UInt32.toNat_inj.mp
      rw [UInt32.toNat_and,written]
      exact (and_one_is_mod _).trans (mul_mod_right 2 k)
    have half : ofNat (2*k) >>> 1 = ofNat k := by
      apply UInt32.toNat_inj.mp
      rw [UInt32.toNat_shiftRight,written,UInt32.toNat_ofNat_of_lt' (by show _ < 2^32; omega)]
      exact Nat.mul_div_cancel_left k (by decide)
    have once : bitStep (ofNat (2*k)) = ofNat k := by
      rw [bitStep,clear,half]
      simp
    rw [bitSteps,once,ih (by omega)]

theorem wordCons (b : UInt8) (n) : ofNat (b.toNat+256*n) = b.toUInt32 ^^^ ofNat (256*n) := by
  have disjoint : b.toNat+256*n = b.toNat ^^^ 256*n := by
    apply eq_of_testBit_eq
    intro i
    have sum : (256*n+b.toNat).testBit i = _ := testBit_two_pow_mul_add n b.toNat_lt i
    have moved : (256*n).testBit i = _ := @Nat.testBit_two_pow_mul 8 n i
    rw [add_comm,sum,testBit_xor,moved]
    by_cases low : i < 8
    · simp [low,not_le.mpr low]
    · have above : b.toNat.testBit i = false :=
        Nat.testBit_lt_two_pow (b.toNat_lt.trans_le (Nat.pow_le_pow_right (by decide) (not_lt.mp low)))
      simp [low,not_lt.mp low,above]
  have byte : UInt32.ofNat b.toNat = b.toUInt32 := UInt32.toNat_inj.mp (by simp)
  rw [disjoint,UInt32.ofNat_xor,byte]

theorem updateWord (short : bytes.length ≤ 4) (state : UInt32) : update state bytes =
    bitSteps (8*bytes.length) (state ^^^ ofNat (ofLeBytes bytes)) := by
  induction bytes generalizing state with
  | nil => simp [update,ofLeBytes,bitSteps]
  | cons b rest ih =>
    have few : rest.length ≤ 3 := le_of_succ_le_succ short
    have fits : 2^8*ofLeBytes rest < 2^32 := by
      have bound : ofLeBytes rest < 256^3 := (ofLeBytesLt rest).trans_le (Nat.pow_le_pow_right (by decide) few)
      omega
    have here : update state (b :: rest) = update (bitSteps 8 (state ^^^ b.toUInt32)) rest := rfl
    rw [here,ih (by omega),← bitStepsShift 8 fits,← bitStepsXor,← bitStepsAdd,ofLeBytes,wordCons,UInt32.xor_assoc,
      length_cons,mul_succ,add_comm]
    rfl

theorem updateInj (data) : Injective fun state => update state data := by
  induction data with
  | nil => exact injective_id
  | cons _ _ ih =>
    intro s t same
    exact xor_left_inj _ |>.mp (bitStepsInj 8 (ih same))

theorem burstChanges {front back mid other : Bytes} (sized : mid.length = other.length) (short : mid.length ≤ 4)
    (same : crc32 (front ++ (mid ++ back)) = crc32 (front ++ (other ++ back))) : mid = other := by
  simp only [crc32,update,foldl_append,not_inj] at same
  have states : update _ mid = update _ other := updateInj back same
  rw [updateWord short,updateWord (sized ▸ short),sized] at states
  have words : ofNat (ofLeBytes mid) = ofNat (ofLeBytes other) := (xor_right_inj _).mp (bitStepsInj _ states)
  have number : ∀ {bytes : Bytes}, bytes.length ≤ 4 → (ofNat (ofLeBytes bytes)).toNat = ofLeBytes bytes := by
    intro bytes few
    have bound : 256^bytes.length ≤ 256^4 := Nat.pow_le_pow_right (by decide) few
    exact toNat_ofNat_of_lt' ((ofLeBytesLt bytes).trans_le bound)
  rw [← leBytesRead mid,← number short,words,number (sized ▸ short),sized,leBytesRead]

end NoeDB.Checksum
