import Mathlib.Algebra.Ring.Nat
import Mathlib.Data.List.Lex
import Mathlib.Tactic.Cases

/-! Byte strings in lexicographic order, fixed-width integers written into them, and
the string that follows all strings with a given beginning. -/
namespace NoeDB.ByteString
open List UInt8 Nat

instance uint8LinearOrder : LinearOrder UInt8 where
  le_refl := UInt8.le_refl
  le_trans _ _ _ := UInt8.le_trans
  le_antisymm _ _ := UInt8.le_antisymm
  le_total := UInt8.le_total
  lt_iff_le_not_ge _ _ := Std.lt_iff_le_and_not_ge
  toDecidableLE := inferInstance
  toDecidableLT := inferInstance
  toDecidableEq := inferInstance

instance uint64LinearOrder : LinearOrder UInt64 where
  le_refl := UInt64.le_refl
  le_trans _ _ _ := UInt64.le_trans
  le_antisymm _ _ := UInt64.le_antisymm
  le_total := UInt64.le_total
  lt_iff_le_not_ge _ _ := Std.lt_iff_le_and_not_ge
  toDecidableLE := inferInstance
  toDecidableLT := inferInstance
  toDecidableEq := inferInstance

abbrev Bytes := List UInt8

def slice (bytes : Bytes) (start stop : Nat) : Bytes := (bytes.drop start).take (stop-start)

def leBytes : Nat → Nat → Bytes
  | 0,_ => []
  | width+1,n => UInt8.ofNat n :: leBytes width (n/256)

def ofLeBytes : Bytes → Nat
  | [] => 0
  | b :: rest => b.toNat+256*ofLeBytes rest

def beBytes (width n : Nat) : Bytes := (leBytes width n).reverse

@[simp] theorem leBytesLength (width n) : (leBytes width n).length = width := by
  induction width generalizing n with
  | zero => rfl
  | succ _ ih => simp [leBytes,ih]

@[simp] theorem beBytesLength (width n) : (beBytes width n).length = width := by
  simp [beBytes]

theorem ofLeBytesWritten (fits : n < 256^width) : ofLeBytes (leBytes width n) = n := by
  induction width generalizing n with
  | zero =>
    simp only [pow_zero,lt_one_iff] at fits
    simp [leBytes,ofLeBytes,fits]
  | succ width ih =>
    have rest : n/256 < 256^width := Nat.div_lt_of_lt_mul (by rwa [Nat.pow_succ,Nat.mul_comm] at fits)
    simp only [leBytes,ofLeBytes,ih rest,toNat_ofNat']
    omega

theorem ofLeBytesLt (bytes) : ofLeBytes bytes < 256^bytes.length := by
  induction bytes with
  | nil => exact Nat.one_pos
  | cons b =>
    have byte := b.toNat_lt
    rw [ofLeBytes,length_cons,pow_succ]
    omega

theorem leBytesRead (bytes) : leBytes bytes.length (ofLeBytes bytes) = bytes := by
  induction bytes with
  | nil => rfl
  | cons b rest ih =>
    have byte := b.toNat_lt
    have tail : (b.toNat+256*ofLeBytes rest)/256 = ofLeBytes rest := by omega
    have head : ofNat (b.toNat+256*ofLeBytes rest) = b := by
      apply UInt8.toNat_inj.mp
      rw [UInt8.toNat_ofNat']
      omega
    rw [length_cons,ofLeBytes,leBytes,tail,head,ih]

theorem leBytesWrap (width n m) : leBytes width (n+256^width*m) = leBytes width n := by
  induction width generalizing n with
  | zero => rfl
  | succ width ih =>
    have head : (n+256^(width+1)*m)%256 = n%256 := by
      rw [pow_succ,mul_comm (256^width) 256,mul_assoc,add_mul_mod_self_left]
    have rest : (n+256^(width+1)*m)/256 = n/256+256^width*m := by
      rw [pow_succ,mul_comm (256^width) 256,mul_assoc,add_mul_div_left _ _ (by decide)]
    have byte : ofNat (n+256^(width+1)*m) = ofNat n := by
      apply UInt8.toNat_inj.mp
      simpa [UInt8.toNat_ofNat'] using head
    rw [leBytes,leBytes,byte,rest,ih]

theorem ofLeBytesZeros (zeros : ∀ b ∈ bytes, b = 0) : ofLeBytes bytes = 0 := by
  induction bytes with
  | nil => rfl
  | cons _ _ ih =>
    obtain ⟨first,later⟩ := forall_mem_cons.mp zeros
    simp [ofLeBytes,first,ih later]

theorem beBytesSucc (width n) : beBytes (width+1) n = beBytes width (n/256) ++ [ofNat n] := by
  simp [beBytes,leBytes]

theorem ltBehind (same : left.length = right.length) (a b : UInt8) :
    left ++ [a] < right ++ [b] ↔ left < right ∨ left = right ∧ a < b := by
  induction left generalizing right with
  | nil =>
    cases right with
    | nil => simp [List.cons_lt_cons_iff]
    | cons => cases same
  | cons first _ ih =>
    cases right with
    | nil => cases same
    | cons second =>
      simp only [List.cons_append,List.cons_lt_cons_iff,ih (Nat.succ.inj same),List.cons.injEq]
      by_cases equal : first = second <;> simp [equal]

theorem beBytesLt (fits : m < 256^width) (other : n < 256^width) : beBytes width m < beBytes width n ↔ m < n := by
  induction width generalizing m n with
  | zero =>
    simp only [Nat.pow_zero,Nat.lt_one_iff] at fits other
    simp [fits,other,beBytes]
  | succ width ih =>
    have first : m/256 < 256^width := Nat.div_lt_of_lt_mul (by omega)
    have second : n/256 < 256^width := Nat.div_lt_of_lt_mul (by omega)
    have equal : beBytes width (m/256) = beBytes width (n/256) ↔ m/256 = n/256 := by
      refine ⟨fun same => ?_,fun same => by rw [same]⟩
      have back := congrArg ofLeBytes (List.reverse_injective same)
      rwa [ofLeBytesWritten first,ofLeBytesWritten second] at back
    rw [beBytesSucc,beBytesSucc,ltBehind (by simp),ih first second,equal,UInt8.lt_iff_toNat_lt]
    simp only [UInt8.toNat_ofNat']
    omega

/- The string after all strings that begin with `bytes`: trailing 0xFF bytes are
dropped and the byte before them is incremented. Nothing follows a string of 0xFF
bytes only; the result is then empty. -/
def incremented : Bytes → Bytes
  | [] => []
  | b :: rest => if b = 255 then incremented rest else (b+1) :: rest

def following (bytes : Bytes) : Bytes := (incremented bytes.reverse).reverse

theorem leAppend (bytes more : Bytes) : bytes ≤ bytes ++ more := by
  induction bytes with
  | nil => exact le_of_not_gt (not_lt_nil more)
  | cons _ _ ih =>
    rcases ih.lt_or_eq with less | same
    · exact le_of_lt (cons_lt_cons_iff.mpr (.inr ⟨rfl,less⟩))
    · rw [cons_append,← same]

theorem appendLtAppend (front : Bytes) (below : left < right) : front ++ left < front ++ right := by
  induction front with
  | nil => exact below
  | cons _ _ ih => exact cons_lt_cons_iff.mpr (.inr ⟨rfl,ih⟩)

theorem appendLt (below : bytes < other) (differs : ¬bytes <+: other) (more : Bytes) : bytes ++ more < other := by
  induction bytes generalizing other with
  | nil => exact absurd List.nil_prefix differs
  | cons _ _ ih =>
    cases other with
    | nil => exact absurd below (not_lt_nil _)
    | cons =>
      rw [cons_append,cons_lt_cons_iff]
      rcases cons_lt_cons_iff.mp below with less | ⟨same,later⟩
      · exact .inl less
      · refine .inr ⟨same,ih later fun beginning => differs ?_⟩
        exact List.cons_prefix_cons.mpr ⟨same,beginning⟩

theorem belowFull {bytes : Bytes} (short : bytes.length < n) : bytes < List.replicate n 255 := by
  induction bytes generalizing n with
  | nil =>
    obtain ⟨k,rfl⟩ : ∃ k, n = k+1 := ⟨n-1,by simp only [length_nil] at short; omega⟩
    exact nil_lt_cons _ _
  | cons b _ ih =>
    obtain ⟨k,rfl⟩ : ∃ k, n = k+1 := ⟨n-1,by simp only [length_cons] at short; omega⟩
    rw [replicate_succ,cons_lt_cons_iff]
    by_cases full : b = 255
    · exact .inr ⟨full,ih (by simp only [length_cons] at short; omega)⟩
    · refine .inl (lt_of_le_of_ne ?_ full)
      rw [le_iff_toNat_le]
      have bound := b.toNat_lt
      have most : (255 : UInt8).toNat = 255 := rfl
      omega

theorem ltSucc {b : UInt8} (room : b ≠ 255) : b < b+1 := by
  have bound := b.toNat_lt
  have small : b.toNat ≠ 255 := fun same => room (UInt8.toNat_inj.mp same)
  rw [UInt8.lt_iff_toNat_lt,UInt8.toNat_add]
  simp only [UInt8.reduceToNat]
  omega

theorem followingNone : following bytes = [] ↔ ∀ b ∈ bytes, b = 255 := by
  have reversed : ∀ bytes, incremented bytes = [] ↔ ∀ b ∈ bytes, b = 255 := by
    intro bytes
    induction bytes with
    | nil => simp [incremented]
    | cons b _ ih =>
      by_cases full : b = 255
      · simp [incremented,full,ih]
      · simp [incremented,full]
  simp [following,reversed]

theorem incrementedAbove {reversed : Bytes} (found : incremented reversed ≠ []) (more : Bytes) :
    reversed.reverse ++ more < (incremented reversed).reverse := by
  induction reversed generalizing more with
  | nil => exact absurd rfl found
  | cons b _ ih =>
    by_cases last : b = 255
    · simp only [incremented,last,if_true] at found ⊢
      simpa using ih found (255 :: more)
    · simp only [incremented,last,if_false,reverse_cons,append_assoc]
      exact appendLtAppend _ (cons_lt_cons_iff.mpr (.inl (ltSucc last)))

theorem followingAbove {bytes} (found : following bytes ≠ []) (more) : bytes ++ more < following bytes := by
  have inside : incremented bytes.reverse ≠ [] := fun none => found (by simp [following,none])
  simpa [following] using incrementedAbove inside more

theorem cutUnique (left : (0 : UInt8) ∉ a) (right : (0 : UInt8) ∉ b)
    (same : a ++ 0 :: c = b ++ 0 :: d) : a = b ∧ c = d := by
  induction a generalizing b with
  | nil =>
    cases b with
    | nil => simpa using same
    | cons x =>
      have head : 0 = x := (List.cons.inj same).1
      exact absurd (by simp [head]) right
  | cons x _ ih =>
    cases b with
    | nil =>
      have head : x = 0 := (List.cons.inj same).1
      exact absurd (by simp [head]) left
    | cons =>
      obtain ⟨rfl,tail⟩ := List.cons.inj same
      simp only [mem_cons,not_or] at left right
      obtain ⟨rfl,rest'⟩ := ih left.2 right.2 tail
      exact ⟨rfl,rest'⟩

end NoeDB.ByteString
