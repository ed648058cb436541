import NoeDB.ByteString

/-! Text and its UTF-8 bytes: encoding, strict and lossy decoding, blanks, letter case of
ASCII and decimal numbers. -/
namespace NoeDB.Text
open ByteString List UInt8

def utf8 (text : String) : Bytes := text.toList.flatMap String.utf8EncodeChar

def fromUtf8 (bytes : Bytes) : Option String :=
  bytes.toByteArray.utf8Decode?.map fun chars => String.ofList chars.toList

section

open String

theorem utf8ByteArray (text) : (utf8 text).toByteArray = text.toByteArray := by
  rw [← utf8Encode_toList]
  rfl

theorem utf8Injective (same : utf8 left = utf8 right) : left = right := by
  rw [← String.toByteArray_inj,← utf8ByteArray,← utf8ByteArray,same]

@[simp] theorem utf8Empty : utf8 "" = [] := rfl

@[simp] theorem utf8Append (left right) : utf8 (left ++ right) = utf8 left ++ utf8 right := by
  simp [utf8]

@[simp] theorem utf8OfList (chars) : utf8 (ofList chars) = chars.flatMap utf8EncodeChar := by
  simp [utf8]

@[simp] theorem fromUtf8Encoded (text) : fromUtf8 (utf8 text) = some text := by
  have decoded : (utf8 text).toByteArray.utf8Decode? = some text.toList.toArray := by
    exact List.utf8Decode?_utf8Encode
  simp [fromUtf8,decoded]

theorem encodedAscii (small : c.toNat < 128) : utf8EncodeChar c = [ofNat c.toNat] := by
  unfold utf8EncodeChar
  extract_lets v
  have same : v = c.toNat := rfl
  rw [if_pos (by omega),same]

theorem encodedBytes (mem : b ∈ utf8EncodeChar c) : b.toNat < 248 ∧ (128 ≤ c.toNat → 128 ≤ b.toNat) := by
  unfold utf8EncodeChar at mem
  extract_lets v at mem
  have same : v = c.toNat := rfl
  split at mem
  · simp only [mem_singleton] at mem
    subst mem
    simp only [toNat_ofNat']
    omega
  split at mem
  · simp only [mem_cons,not_mem_nil,or_false] at mem
    rcases mem with rfl | rfl <;> simp only [toNat_ofNat'] <;> omega
  split at mem
  · simp only [mem_cons,not_mem_nil,or_false] at mem
    rcases mem with rfl | rfl | rfl <;> simp only [toNat_ofNat'] <;> omega
  · simp only [mem_cons,not_mem_nil,or_false] at mem
    rcases mem with rfl | rfl | rfl | rfl <;> simp only [toNat_ofNat'] <;> omega

theorem encodedHigh {c} (large : 128 ≤ c.toNat) {b} (mem : b ∈ utf8EncodeChar c) : 128 ≤ b.toNat :=
  (encodedBytes mem).2 large

theorem encodedFirst (c) : ∃ b rest,utf8EncodeChar c = b :: rest ∧ (b.toNat < 128 ∨ 192 ≤ b.toNat) := by
  unfold utf8EncodeChar
  extract_lets v
  split
  · refine ⟨_,_,rfl,.inl ?_⟩
    simp only [toNat_ofNat']
    omega
  split
  · refine ⟨_,_,rfl,.inr ?_⟩
    simp only [toNat_ofNat']
    omega
  split
  · refine ⟨_,_,rfl,.inr ?_⟩
    simp only [toNat_ofNat']
    omega
  · refine ⟨_,_,rfl,.inr ?_⟩
    simp only [toNat_ofNat']
    omega

theorem utf8Below (mem : b ∈ utf8 text) : b.toNat < 248 := by
  obtain ⟨c,-,inside⟩ := mem_flatMap.mp mem
  exact (encodedBytes inside).1

theorem encodedZero : (0 : UInt8) ∈ utf8EncodeChar c ↔ c = '\x00' := by
  constructor
  · intro mem
    have small : c.val.toNat = 0 := by
      unfold utf8EncodeChar at mem
      extract_lets v at mem
      have byte : ∀ n, (0 : UInt8) = ofNat n → n%256 = 0 := by
        intro n same
        have numbers := congrArg toNat same
        simpa [toNat_ofNat'] using numbers.symm
      split at mem
      · have zero := byte _ (mem_singleton.mp mem)
        show v = 0
        omega
      split at mem
      · simp only [mem_cons,not_mem_nil,or_false] at mem
        rcases mem with same | same <;> have zero := byte _ same <;> omega
      split at mem
      · simp only [mem_cons,not_mem_nil,or_false] at mem
        rcases mem with same | same | same <;> have zero := byte _ same <;> omega
      · simp only [mem_cons,not_mem_nil,or_false] at mem
        rcases mem with same | same | same | same <;> have zero := byte _ same <;> omega
    exact Char.ext (UInt32.toNat_inj.mp small)
  · rintro rfl
    decide

theorem charsCut {chars : List Char} {front back}
    (whole : chars.flatMap utf8EncodeChar = front ++ 0 :: back) : ∃ left right : List Char,
      front = left.flatMap utf8EncodeChar ∧ back = right.flatMap utf8EncodeChar := by
  induction chars generalizing front with
  | nil => simp at whole
  | cons c rest ih =>
    rcases append_eq_append_iff.mp whole with ⟨more,long,tail⟩ | ⟨more,long,tail⟩
    · obtain ⟨left,right,start,stop⟩ := ih tail
      exact ⟨c :: left,right,by rw [flatMap_cons,long,start],stop⟩
    · cases more with
      | nil =>
        obtain ⟨left,right,start,stop⟩ := @ih [] tail.symm
        exact ⟨c :: left,right,by rw [flatMap_cons,long,← start,append_nil,append_nil],stop⟩
      | cons _ others =>
        obtain ⟨rfl,same⟩ := cons_eq_cons.mp tail
        have nul : c = '\x00' := encodedZero.mp (by rw [long]; simp)
        subst nul
        have single : utf8EncodeChar '\x00' = [0] := by decide
        rw [single] at long
        cases front with
        | nil =>
          have empty : others = [] := by simpa using long
          exact ⟨[],rest,rfl,by rw [same,empty]; rfl⟩
        | cons =>
          have impossible := congrArg List.length long
          simp at impossible

theorem utf8Cut {text : String} {front back} (whole : utf8 text = front ++ 0 :: back) :
    ∃ left right, front = utf8 left ∧ back = utf8 right := by
  obtain ⟨left,right,start,stop⟩ := charsCut whole
  exact ⟨ofList left,ofList right,by rw [utf8OfList,start],by rw [utf8OfList,stop]⟩

end

def continues (b : UInt8) : Bool := b &&& 192 == 128

theorem continuesIff (b) : continues b = true ↔ 128 ≤ b.toNat ∧ b.toNat < 192 := by
  have all : ∀ n : Fin 256,continues (ofFin n) = true ↔ 128 ≤ n.val ∧ n.val < 192 := by decide +kernel
  exact all b.toFin

/- The length of the longest beginning of the bytes that could start a character but
does not; the bytes do not begin with one. -/
def invalidLength : Bytes → Nat
  | first :: second :: rest =>
      let lead : Bool := (first = 224 ∧ 160 ≤ second ∧ second ≤ 191) ∨
        (225 ≤ first ∧ first ≤ 236 ∧ 128 ≤ second ∧ second ≤ 191) ∨
        (first = 237 ∧ 128 ≤ second ∧ second ≤ 159) ∨ (238 ≤ first ∧ first ≤ 239 ∧ 128 ≤ second ∧ second ≤ 191)
      let long : Bool := (first = 240 ∧ 144 ≤ second ∧ second ≤ 191) ∨
        (241 ≤ first ∧ first ≤ 243 ∧ 128 ≤ second ∧ second ≤ 191) ∨ (first = 244 ∧ 128 ≤ second ∧ second ≤ 143)
      if lead then 2
      else if long then
        match rest with
        | third :: _ => if continues third then 3 else 2
        | [] => 2
      else 1
  | _ => 1

def lossyChars : Nat → Bytes → List Char
  | 0,_ => []
  | _+1,[] => []
  | n+1,bytes =>
      match bytes.toByteArray.utf8DecodeChar? 0 with
      | some c => c :: lossyChars n (bytes.drop c.utf8Size)
      | none => '�' :: lossyChars n (bytes.drop (invalidLength bytes))

def fromUtf8Lossy (bytes : Bytes) : String :=
  match fromUtf8 bytes with
  | some text => text
  | none => String.ofList (lossyChars bytes.length bytes)

@[simp] theorem lossyEncoded (text) : fromUtf8Lossy (utf8 text) = text := by
  simp [fromUtf8Lossy]

example : fromUtf8Lossy [97,255,226,130,98] = "a��b" := by decide +kernel

def isWhitespace (c : Char) : Bool :=
  let n := c.toNat
  (9 ≤ n && n ≤ 13) || n == 32 || n == 0x85 || n == 0xA0 || n == 0x1680 || (0x2000 ≤ n && n ≤ 0x200A) ||
    n == 0x2028 || n == 0x2029 || n == 0x202F || n == 0x205F || n == 0x3000

def trimChars (drop : Char → Bool) (text : String) : String :=
  String.ofList ((text.toList.dropWhile drop).reverse.dropWhile drop).reverse

def trim (text : String) : String := trimChars isWhitespace text

def trimStart (c : Char) (text : String) : String := String.ofList (text.toList.dropWhile (· == c))
def trimEnd (c : Char) (text : String) : String := String.ofList (text.toList.reverse.dropWhile (· == c)).reverse

def isDigit (c : Char) : Bool := '0' ≤ c ∧ c ≤ '9'

def upperChar (c : Char) : Char := if 'a' ≤ c ∧ c ≤ 'z' then Char.ofNat (c.toNat-32) else c
def lowerChar (c : Char) : Char := if 'A' ≤ c ∧ c ≤ 'Z' then Char.ofNat (c.toNat+32) else c

def asciiUpper (text : String) : String := String.ofList (text.toList.map upperChar)
def asciiLower (text : String) : String := String.ofList (text.toList.map lowerChar)

def equalIgnoreCase (left right : String) : Bool := asciiLower left == asciiLower right

def splitChars (sep : Char) : List Char → List (List Char)
  | [] => [[]]
  | c :: rest =>
      if c = sep then [] :: splitChars sep rest
      else match splitChars sep rest with
        | part :: parts => (c :: part) :: parts
        | [] => [[c]]

def split (sep : Char) (text : String) : List String := (splitChars sep text.toList).map String.ofList

def rsplitOnce (sep : Char) (text : String) : Option (String × String) :=
  let back := text.toList.reverse
  let after := back.takeWhile (· != sep)
  match back.drop after.length with
  | [] => none
  | _ :: before => some (String.ofList before.reverse,String.ofList after.reverse)

theorem dropTaken {α : Type} (test) (l : List α) : l.drop (l.takeWhile test).length = l.dropWhile test := by
  induction l with
  | nil => rfl
  | cons first _ ih => cases holds : test first <;> simp [holds,ih]

theorem rsplitOnceCut (sep) (text : String) : (rsplitOnce sep text = none ∧ sep ∉ text.toList) ∨
    ∃ before bare, rsplitOnce sep text = some (before,bare) ∧
      text.toList = before.toList ++ sep :: bare.toList ∧ sep ∉ bare.toList := by
  have clear : sep ∉ text.toList.reverse.takeWhile (· != sep) := fun mem => by simpa using all_eq_true.mp all_takeWhile _ mem
  have whole := takeWhile_append_dropWhile (p := (· != sep)) (l := text.toList.reverse)
  unfold rsplitOnce
  simp only [dropTaken]
  cases rest : text.toList.reverse.dropWhile (· != sep) with
  | nil =>
    rw [rest,append_nil] at whole
    rw [whole,mem_reverse] at clear
    exact .inl ⟨rfl,clear⟩
  | cons first =>
    have same : first = sep := by
      have stopped := head?_dropWhile_not (· != sep) text.toList.reverse
      rw [rest] at stopped
      simpa using stopped
    refine .inr ⟨_,_,rfl,?_,by simpa using clear⟩
    have back := congrArg reverse whole
    rw [rest,same] at back
    simpa using back.symm

def join (sep : String) : List String → String
  | [] => ""
  | [part] => part
  | part :: rest => part ++ sep ++ join sep rest

def digitsValue (chars : List Char) : Nat := chars.foldl (fun n c => 10*n+(c.toNat-48)) 0

def signed : List Char → Bool × List Char
  | '-' :: rest => (true,rest)
  | '+' :: rest => (false,rest)
  | chars => (false,chars)

def parseInt (text : String) : Option Int :=
  let (negative,digits) := signed text.toList
  if digits = [] ∨ ¬digits.all isDigit then none
  else some (if negative then -(digitsValue digits : Int) else digitsValue digits)

def padLeft (width : Nat) (text : String) : String :=
  String.ofList (List.replicate (width-text.length) '0') ++ text

end NoeDB.Text
