import Mathlib.Algebra.Ring.Int.Defs
import NoeDB.Text

/-! Binary floating-point numbers as exact numbers and as decimal text: the shortest
decimal that reads back as the number, the reading itself, and the conversions that go
through the exact value. -/
namespace NoeDB.Decimals
open Text

inductive Exact where
  | nan
  | infinite (negative : Bool)
  | finite (negative : Bool) (mantissa : Nat) (exponent : Int)
  deriving DecidableEq, Repr

def unpack (mantissaBits exponentBits bits : Nat) : Exact :=
  let negative : Bool := bits/2^(mantissaBits+exponentBits)%2 = 1
  let exponent := bits/2^mantissaBits%2^exponentBits
  let fraction := bits%2^mantissaBits
  let lowest : Int := 2-2^(exponentBits-1)-mantissaBits
  if exponent = 2^exponentBits-1 then
    if fraction = 0 then .infinite negative else .nan
  else if exponent = 0 then .finite negative fraction lowest
  else .finite negative (2^mantissaBits+fraction) (lowest+exponent-1)

structure Binary (φ : Type) where
  exact : φ → Exact
  nearest : Nat → Int → φ
  negate : φ → φ
  infinity : φ
  nan : φ
  /- Decimals from ten to this power on are infinite, those below its inverse zero. -/
  reach : Nat

def double : Binary Float where
  exact f := unpack 52 11 f.toBits.toNat
  nearest digits exponent := Float.ofScientific digits (exponent < 0) exponent.natAbs
  negate := Float.neg
  infinity := Float.ofBits 0x7FF0000000000000
  nan := Float.ofBits 0x7FF8000000000000
  reach := 400

def single : Binary Float32 where
  exact f := unpack 23 8 f.toBits.toNat
  nearest digits exponent := Float32.ofScientific digits (exponent < 0) exponent.natAbs
  negate := Float32.neg
  infinity := Float32.ofBits 0x7F800000
  nan := Float32.ofBits 0x7FC00000
  reach := 100

def ratio (mantissa : Nat) (exponent : Int) : Nat × Nat :=
  if exponent < 0 then (mantissa,2^exponent.natAbs) else (mantissa*2^exponent.natAbs,1)

section
variable {φ : Type} (binary : Binary φ)

def scaled (digits : Nat) (exponent : Int) : φ :=
  let length : Int := (toString digits).length
  if digits = 0 then binary.nearest 0 0
  else if binary.reach < length+exponent then binary.infinity
  else if length+exponent < -binary.reach then binary.nearest 0 0
  else binary.nearest digits exponent

def parseExponent : List Char → Option Int
  | [] => some 0
  | c :: rest =>
      if c = 'e' ∨ c = 'E' then
        let (negative,digits) := signed rest
        if digits = [] ∨ ¬digits.all isDigit then none
        else some (if negative then -(digitsValue digits : Int) else digitsValue digits)
      else none

def parseUnsigned (chars : List Char) : Option φ :=
  let whole := chars.takeWhile isDigit
  let rest := chars.drop whole.length
  let (fraction,rest) := match rest with
    | '.' :: more => (more.takeWhile isDigit,more.dropWhile isDigit)
    | _ => ([],rest)
  if whole ++ fraction = [] then none
  else do
    let exponent ← parseExponent rest
    some (scaled binary (digitsValue (whole ++ fraction)) (exponent-fraction.length))

def parse (text : String) : Option φ := do
  let (negative,chars) := signed text.toList
  let name := chars.map lowerChar
  let magnitude ←
    if name = "inf".toList ∨ name = "infinity".toList then some binary.infinity
    else if name = "nan".toList then some binary.nan
    else parseUnsigned binary chars
  some (if negative then binary.negate magnitude else magnitude)

end

section
variable {φ : Type} [DecidableEq φ] (binary : Binary φ)

def magnitudeFrom (denominator : Nat) : Nat → Nat → Int → Int
  | 0,_,k => k
  | fuel+1,numerator,k => if denominator ≤ numerator then k else magnitudeFrom denominator fuel (numerator*10) (k-1)

def magnitude (numerator denominator : Nat) : Int :=
  if denominator ≤ numerator then (toString (numerator/denominator)).length
  else magnitudeFrom denominator (2*(toString denominator).length) numerator 1

/- Of the two decimals with last place `place` around the number the one that reads back
as it; the nearer one where both do. -/
def closest (value : φ) (numerator denominator : Nat) (place : Int) : Option Nat :=
  let top := if place < 0 then numerator*10^place.natAbs else numerator
  let bottom := if place < 0 then denominator else denominator*10^place.natAbs
  let low := top/bottom
  let below : Bool := scaled binary low place = value
  let above : Bool := scaled binary (low+1) place = value
  if below ∧ (¬above ∨ 2*(top%bottom) < bottom) then some low
  else if above then some (low+1)
  else none

def shortestFrom (value : φ) (numerator denominator : Nat) (k : Int) : Nat → Nat → Nat × Int
  | 0,_ => (0,0)
  | fuel+1,count =>
      match closest binary value numerator denominator (k-count) with
      | some digits => (digits,k-count)
      | none => shortestFrom value numerator denominator k fuel (count+1)

def trimZeros : Nat → Nat → Int → Nat × Int
  | 0,digits,exponent => (digits,exponent)
  | fuel+1,digits,exponent =>
      if digits ≠ 0 ∧ digits%10 = 0 then trimZeros fuel (digits/10) (exponent+1) else (digits,exponent)

def shortest (value : φ) (mantissa : Nat) (exponent : Int) : Nat × Int :=
  let (numerator,denominator) := ratio mantissa exponent
  let (digits,place) := shortestFrom binary value numerator denominator (magnitude numerator denominator) 20 1
  trimZeros 20 digits place

def zeros (n : Nat) : String := String.ofList (List.replicate n '0')

def positional (suffix : String) (digits : Nat) (exponent : Int) : String :=
  let text := toString digits
  if 0 ≤ exponent then text ++ zeros exponent.natAbs ++ suffix
  else
    let places := exponent.natAbs
    if places < text.length then
      String.ofList (text.toList.take (text.length-places)) ++ "." ++
        String.ofList (text.toList.drop (text.length-places))
    else "0." ++ zeros (places-text.length) ++ text

def scientific (digits : Nat) (exponent : Int) : String :=
  let text := toString digits
  let mantissa := match text.toList with
    | first :: second :: rest => String.ofList [first] ++ "." ++ String.ofList (second :: rest)
    | _ => text
  mantissa ++ "e" ++ toString (exponent+text.length-1)

def printWith (form : Nat → Int → String) (zero : String) (value : φ) : String :=
  match binary.exact value with
  | .nan => "NaN"
  | .infinite negative => if negative then "-inf" else "inf"
  | .finite negative mantissa exponent =>
      let sign := if negative then "-" else ""
      if mantissa = 0 then sign ++ zero
      else
        let magnitude := if negative then binary.negate value else value
        let (digits,place) := shortest binary magnitude mantissa exponent
        sign ++ form digits place

def print (value : φ) : String := printWith binary (positional "") "0" value

def debugForm (digits : Nat) (exponent : Int) : String :=
  let place := exponent+(toString digits).length
  if place ≤ -4 ∨ 16 < place then scientific digits exponent else positional ".0" digits exponent

def debug (value : φ) : String := printWith binary debugForm "0.0" value

end

def truncated (f : Float) : Option Int :=
  match double.exact f with
  | .finite negative mantissa exponent =>
      let (numerator,denominator) := ratio mantissa exponent
      some (if negative then -(numerator/denominator : Nat) else (numerator/denominator : Nat))
  | _ => none

def rounded (f : Float) : Float :=
  match double.exact f with
  | .finite negative mantissa exponent =>
      if 0 ≤ exponent then f
      else
        let (numerator,denominator) := ratio mantissa exponent
        let whole := Float.ofNat ((2*numerator+denominator)/(2*denominator))
        if negative then whole.neg else whole
  | _ => f

def toInt64 (f : Float) : Int64 :=
  match double.exact f with
  | .nan => 0
  | .infinite negative => if negative then Int64.minValue else Int64.maxValue
  | .finite _ _ _ =>
      let n := (truncated f).getD 0
      if n < Int64.minValue.toInt then Int64.minValue
      else if Int64.maxValue.toInt < n then Int64.maxValue
      else Int64.ofInt n

def remainder (a b : Float) : Float :=
  match double.exact a,double.exact b with
  | .finite negative m e,.finite _ n d =>
      if n = 0 then double.nan
      else
        let (top,bottom) := ratio m e
        let (numerator,denominator) := ratio n d
        let rest := top*denominator%(numerator*bottom)
        -- the remainder is a multiple of the smaller unit and below the divisor, so it is exact
        let magnitude := Float.ofNat rest/Float.ofNat (bottom*denominator)
        if negative then magnitude.neg else magnitude
  | .finite _ _ _,.infinite _ => a
  | _,_ => double.nan

def widen (f : Float32) : Float :=
  match single.exact f with
  | .nan => double.nan
  | .infinite negative => if negative then double.infinity.neg else double.infinity
  | .finite negative mantissa exponent =>
      let magnitude := if exponent < 0 then Float.ofNat mantissa/Float.ofNat (2^exponent.natAbs)
        else Float.ofNat (mantissa*2^exponent.natAbs)
      if negative then magnitude.neg else magnitude

example : print double 0.1 = "0.1" ∧ print double (Float.ofNat 100) = "100" ∧
    debug double 1e16 = "1e16" ∧ parse double "-2.50" = some (-2.5) := by decide +kernel

end NoeDB.Decimals
