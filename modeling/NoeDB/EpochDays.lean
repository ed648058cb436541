import NoeDB.SqlValue

/-! Days since 1970-01-01 as dates, and dates as texts (noedb-planner: cast.rs), beside the
day numbers of the Gregorian calendar. -/
namespace NoeDB.EpochDays
open Text SqlValue List

def leapYear (y : Nat) : Bool := y%4 = 0 ∧ (y%100 ≠ 0 ∨ y%400 = 0)

def monthLength (y : Nat) : Nat → Nat
  | 2 => if leapYear y then 29 else 28
  | 4 | 6 | 9 | 11 => 30
  | _ => 31

def beforeYear (y : Nat) : Nat := 365*(y-1)+((y-1)/4-(y-1)/100+(y-1)/400)
def beforeMonth (y m : Nat) : Nat := ((range' 1 (m-1)).map (monthLength y)).sum

def dayNumber (date : Nat × Nat × Nat) : Nat := beforeYear date.1+beforeMonth date.1 date.2.1+(date.2.2-1)

def epoch : Nat × Nat × Nat := (1970,1,1)

structure Valid (date : Nat × Nat × Nat) : Prop where
  year : 1 ≤ date.1
  month : 1 ≤ date.2.1 ∧ date.2.1 ≤ 12
  day : 1 ≤ date.2.2 ∧ date.2.2 ≤ monthLength date.1 date.2.1

theorem isLeapYear (y) : isLeap y = leapYear y := by
  simp only [isLeap,leapYear,decide_eq_decide]
  omega

theorem beforeMonthSucc (y) (positive : 1 ≤ m) : beforeMonth y (m+1) = beforeMonth y m+monthLength y m := by
  obtain ⟨n,rfl⟩ := Nat.exists_eq_add_of_le' positive
  simp [beforeMonth,range'_1_concat,Nat.add_comm]

def yearLength (y : Nat) : Nat := if leapYear y then 366 else 365

theorem divSucc (n k) : (n+1)/k = n/k+if (n+1)%k = 0 then 1 else 0 := by
  simp [Nat.succ_div,Nat.dvd_iff_mod_eq_zero]

theorem beforeYearSucc (positive : 1 ≤ y) : beforeYear (y+1) = beforeYear y+yearLength y := by
  obtain ⟨n,rfl⟩ := Nat.exists_eq_add_of_le' positive
  have hundred : (n+1)%100 = 0 → (n+1)%4 = 0 := by omega
  have fourHundred : (n+1)%400 = 0 → (n+1)%100 = 0 := by omega
  have fewer : n/100 ≤ n/4 := Nat.div_le_div_left (by decide) (by decide)
  simp only [beforeYear,yearLength,leapYear,decide_eq_true_eq,Nat.add_sub_cancel,divSucc]
  generalize n/100 = b,n/4 = a,n/400 = c at fewer ⊢
  split_ifs <;> omega

theorem sumMono {total part : Nat → Nat} (step : ∀ {n}, 1 ≤ n → total (n+1) = total n+part n) (positive : 1 ≤ m)
    (below : m ≤ n) : total m ≤ total n := by
  induction n, below using Nat.le_induction with
  | base => exact le_rfl
  | succ _ above =>
    rw [step (positive.trans above)]
    omega

theorem yearOfSplits {fuel y days} (positive : 1 ≤ y) (enough : days < 365*fuel) :
    1 ≤ (yearOf fuel y days).1 ∧ (yearOf fuel y days).2 < yearLength (yearOf fuel y days).1 ∧
      beforeYear (yearOf fuel y days).1+(yearOf fuel y days).2 = beforeYear y+days := by
  induction fuel generalizing y days with
  | zero => omega
  | succ _ ih =>
    have length : (if isLeap y then 366 else 365) = yearLength y := by simp [yearLength,isLeapYear]
    have long : 365 ≤ yearLength y := by unfold yearLength; split <;> omega
    simp only [yearOf,length]
    split
    · rename_i inside
      exact ⟨positive,inside,rfl⟩
    · have rest := @ih (y+1) (days-yearLength y) (by omega) (by omega)
      rw [beforeYearSucc positive] at rest
      omega

theorem monthOfSplits {n y m days} (positive : 1 ≤ m) (inside : days < ((range' m n).map (monthLength y)).sum) :
    let date := monthOf ((range' m n).map (monthLength y)) m days
    (m ≤ date.1 ∧ date.1 < m+n) ∧ (1 ≤ date.2 ∧ date.2 ≤ monthLength y date.1) ∧
      beforeMonth y date.1+(date.2-1) = beforeMonth y m+days := by
  induction n generalizing m days with
  | zero => simp at inside
  | succ _ ih =>
    simp only [range'_succ,map_cons,sum_cons] at inside
    simp only [range'_succ,map_cons,monthOf]
    split
    · simp only
      omega
    · have rest := @ih (m+1) (days-monthLength y m) (by omega) (by omega)
      simp only [beforeMonthSucc y positive] at rest
      omega

theorem wholeYear (y) : beforeMonth y 13 = yearLength y := by
  simp only [beforeMonth,yearLength]
  split <;> simp [range'_succ,monthLength, *]

theorem epochDay (days) : Valid (epochDayToYmd days) ∧ dayNumber (epochDayToYmd days) = dayNumber epoch+days := by
  obtain ⟨positive,inside,number⟩ := @yearOfSplits (days/365+1) 1970 days (by decide) (by omega)
  unfold epochDayToYmd
  generalize yearOf (days/365+1) 1970 days = year at positive inside number
  obtain ⟨y,rest⟩ := year
  have months : (if isLeap y then [31,29,31,30,31,30,31,31,30,31,30,31] else [31,28,31,30,31,30,31,31,30,31,30,31]) =
      (range' 1 12).map (monthLength y) := by
    simp only [isLeapYear]
    split <;> simp [range'_succ,monthLength, *]
  rw [← wholeYear] at inside
  obtain ⟨month,day,_⟩ := @monthOfSplits 12 y 1 rest (by decide) inside
  simp only [months]
  refine ⟨⟨positive,⟨month.1,Nat.le_of_lt_succ month.2⟩,day⟩,?_⟩
  have zero : beforeMonth y 1 = 0 ∧ beforeMonth 1970 1 = 0 := ⟨rfl,rfl⟩
  simp only [dayNumber,epoch] at number ⊢
  omega

def Before (a b : Nat × Nat × Nat) : Prop :=
  a.1 < b.1 ∨ a.1 = b.1 ∧ (a.2.1 < b.2.1 ∨ a.2.1 = b.2.1 ∧ a.2.2 < b.2.2)

theorem withinYear (valid : Valid date) : dayNumber date < beforeYear (date.1+1) := by
  obtain ⟨positive,⟨month,late⟩,_⟩ := valid
  have next := beforeMonthSucc date.1 month
  have year := sumMono (beforeMonthSucc date.1) (Nat.le_add_left 1 date.2.1) (Nat.succ_le_succ late)
  rw [wholeYear] at year
  rw [beforeYearSucc positive,dayNumber]
  omega

theorem beforeNumber (first : Valid a) (before : Before a b) : dayNumber a < dayNumber b := by
  rcases before with less | ⟨year,less | ⟨month,less⟩⟩
  · have more := sumMono beforeYearSucc (Nat.le_add_left 1 a.1) less
    exact (withinYear first).trans_le (more.trans (by unfold dayNumber; omega))
  · have more := sumMono (beforeMonthSucc a.1) (Nat.le_add_left 1 a.2.1) less
    rw [beforeMonthSucc a.1 first.month.1] at more
    have day := first.day
    simp only [dayNumber,← year]
    omega
  · have early := first.day.1
    simp only [dayNumber,← year,← month]
    omega

theorem beforeTotal (a b) : Before a b ∨ a = b ∨ Before b a := by
  simp only [Before,Prod.ext_iff]
  omega

theorem numberInjective (first : Valid a) (second : Valid b) (same : dayNumber a = dayNumber b) : a = b := by
  rcases beforeTotal a b with before | equal | before
  · exact absurd same (beforeNumber first before).ne
  · exact equal
  · exact absurd same (beforeNumber second before).ne'

theorem epochDaysExact : (∀ days, Valid (epochDayToYmd days) ∧ dayNumber (epochDayToYmd days) = dayNumber epoch+days) ∧
    Function.Injective epochDayToYmd ∧ ∀ {a b}, a < b → Before (epochDayToYmd a) (epochDayToYmd b) := by
  have injective : Function.Injective epochDayToYmd := by
    intro a b same
    have first := (epochDay a).2
    rw [same,(epochDay b).2] at first
    omega
  refine ⟨epochDay,injective,fun {a b} less => ?_⟩
  have number := (epochDay a).2
  obtain ⟨valid,_⟩ := epochDay b
  rcases beforeTotal (epochDayToYmd a) (epochDayToYmd b) with before | same | before
  · exact before
  · exact absurd (injective same) less.ne
  · have := beforeNumber valid before
    omega

def digit (n : Nat) : Char := Char.ofNat (48+n%10)

/- `YYYY-MM-DD`. -/
def dateText (date : Nat × Nat × Nat) : String :=
  let (y,m,d) := date
  String.ofList [digit (y/1000),digit (y/100),digit (y/10),digit y,'-',digit (m/10),digit m,'-',digit (d/10),digit d]

theorem digitOrDash {date c} (mem : c ∈ (dateText date).toList) : (isDigit c || c == '-') = true := by
  have digits (n : Nat) : isDigit (digit n) = true := by
    have all : ∀ k < 10, isDigit (Char.ofNat (48+k)) = true := by decide
    exact all _ (Nat.mod_lt n (by decide))
  simp only [dateText,String.toList_ofList,mem_cons,not_mem_nil,or_false] at mem
  rcases mem with rfl | rfl | rfl | rfl | rfl | rfl | rfl | rfl | rfl | rfl <;> simp [digits]

theorem dashBounds (plain : (isDigit c || c == '-') = true) : 45 ≤ c.toNat ∧ c.toNat ≤ 57 := by
  simp only [isDigit,Bool.or_eq_true,decide_eq_true_eq,beq_iff_eq] at plain
  rcases plain with ⟨low,high⟩ | rfl
  · exact ⟨le_trans (by decide) (UInt32.le_iff_toNat_le.mp low),UInt32.le_iff_toNat_le.mp high⟩
  · decide

theorem parsedDate (date) : parseTimestampBytes (utf8 (dateText date)) = .ok 0 := by
  have plain := fun c => @digitOrDash date c
  have dropped {l : List Char} (inside : ∀ c ∈ l, c ∈ (dateText date).toList) : l.dropWhile isWhitespace = l := by
    cases l with
    | nil => rfl
    | cons c =>
      have bounds := dashBounds (plain c (inside c mem_cons_self))
      refine dropWhile_cons_of_neg ?_
      simp only [isWhitespace,Bool.or_eq_true,Bool.and_eq_true,decide_eq_true_eq,beq_iff_eq]
      omega
  have trimmed : trim (dateText date) = dateText date := by
    rw [trim,trimChars,dropped fun _ mem => mem,dropped fun _ mem => mem_reverse.mp mem,reverse_reverse,String.ofList_toList]
  have length : (utf8 (dateText date)).length = 10 := by
    have single : ∀ c ∈ (dateText date).toList, String.utf8EncodeChar c = [UInt8.ofNat c.toNat] := fun c mem =>
      encodedAscii (by have := dashBounds (plain c mem); omega)
    rw [← String.ofList_toList (s := dateText date),utf8OfList,flatMap_congr single,← map_eq_flatMap,length_map,
      dateText,String.toList_ofList]
    rfl
  simp [parseTimestampBytes,fromUtf8Encoded,trimmed,length,all_eq_true.mpr plain]

/- A date is always read as the start of 1970. -/
theorem castsInverseIff {date} (valid : Valid date) (late : dayNumber epoch ≤ dayNumber date) (short : date.1 ≤ 9999) :
    (castValue (.bytes (utf8 (dateText date))) .timestamp =
        .ok (.timestamp (Int64.ofNat (86400*(dayNumber date-dayNumber epoch)))) ∧
      castValue (.timestamp (Int64.ofNat (86400*(dayNumber date-dayNumber epoch)))) .date =
        .ok (.date (utf8 (dateText date)))) ↔ date = epoch := by
  have first : Valid epoch := ⟨by decide,by decide,by decide⟩
  constructor
  · rintro ⟨cast,_⟩
    refine numberInjective valid first (le_antisymm ?_ late)
    have read : castValue (.bytes (utf8 (dateText date))) .timestamp = .ok (.timestamp 0) := by
      simp [castValue,castToTimestamp,parsedDate,Except.map]
    rw [read] at cast
    simp only [Except.ok.injEq,Value.timestamp.injEq] at cast
    have soon := (withinYear valid).trans_le (sumMono beforeYearSucc (Nat.le_add_left 1 date.1) (Nat.succ_le_succ short))
    have bound : beforeYear (Nat.succ 9999) = 3652059 := rfl
    have zero := congrArg Int64.toInt cast
    rw [Int64.toInt_ofNat_of_lt (by omega),Int64.toInt_zero] at zero
    omega
  · rintro rfl
    rw [Nat.sub_self]
    refine ⟨?_,by decide +kernel⟩
    simp only [castValue,castToTimestamp,parsedDate,Except.map]
    rfl

theorem epochInverts : castValue (.bytes (utf8 "1970-01-01")) .timestamp = .ok (.timestamp 0) ∧
    castValue (.timestamp 0) .date = .ok (.date (utf8 "1970-01-01")) :=
  (@castsInverseIff epoch ⟨by decide,by decide,by decide⟩ le_rfl (by decide)).mpr rfl

theorem leapDayLost : castValue (.bytes (utf8 "2024-02-29")) .timestamp = .ok (.timestamp 0) ∧
    castValue (.timestamp 0) .date ≠ .ok (.date (utf8 "2024-02-29")) := by decide +kernel

end NoeDB.EpochDays
