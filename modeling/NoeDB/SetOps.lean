import NoeDB.KeyedBags
import NoeDB.SqlValue
import Mathlib.Data.String.Basic
import Mathlib.Data.List.Sort

/-! Set operations on rows (noedb-planner: setops.rs), against the operations on bags of
value lists that compare rows position by position. -/
namespace NoeDB.SetOps
open ByteString Text SqlAst SqlValue KeyedBags List

def values (row : Row) : List Value := row.map Prod.snd

def byName (row : Row) : Row := row.insertionSort fun a b => a.1 ≤ b.1

def fieldBytes (field : String × Value) : Bytes := utf8 field.1 ++ 0 :: (field.2.asBytes ++ [0])

def rowKey (row : Row) : Bytes := (byName row).flatMap fieldBytes

def sortedColNames (row : Row) : List String := (row.map Prod.fst).insertionSort (· ≤ ·)

def renamed (first row : Row) : Row := (sortedColNames first).zip (values row)

def alignSetOpRows (left right : List Row) : List Row :=
  match left with
  | [] => right
  | first :: _ => right.map (renamed first)

def unionRows (left right : List Row) (all : Bool) : List Row :=
  if all then left ++ right else firstSeen rowKey [] (left ++ right)

def intersectRows (left right : List Row) (all : Bool) : List Row :=
  if all then drawn rowKey (supplyOf (right.map rowKey)) left
  else firstSeen rowKey [] (left.filter fun row => (right.map rowKey).any (rowKey row = ·))

def exceptRows (left right : List Row) (all : Bool) : List Row :=
  if all then undrawn rowKey (supplyOf (right.map rowKey)) left
  else firstSeen rowKey [] (left.filter fun row => !(right.map rowKey).any (rowKey row = ·))

def combineSetOp (left right : List Row) (op : SetOpKind) (all : Bool) : List Row :=
  let right := alignSetOpRows left right
  match op with
  | .union => unionRows left right all
  | .intersect => intersectRows left right all
  | .except => exceptRows left right all

def bag (rows : List Row) : Multiset (List Value) := (rows.map values : List (List Value))

def positional (op : SetOpKind) (all : Bool) (left right : Multiset (List Value)) : Multiset (List Value) :=
  match op,all with
  | .union,true => left+right
  | .union,false => (left+right).dedup
  | .intersect,true => left ∩ right
  | .intersect,false => (left ∩ right).dedup
  | .except,true => left-right
  | .except,false => (left.filter (· ∉ right)).dedup

section
variable {left right : List Row}

theorem unionBag (alike : Alike rowKey values (left ++ right)) (all) :
    bag (unionRows left right all) = positional .union all (bag left) (bag right) := by
  cases all with
  | true => simp [unionRows,bag,positional]
  | false =>
    have same : firstSeen rowKey [] (left ++ right) = firstSeen values [] (left ++ right) := by
      have both := @firstSeenAlike _ _ _ _ _ rowKey values [] (left ++ right) alike
      exact both
    simp only [unionRows,positional,Bool.false_eq_true,if_false,same,bag,firstSeenBag]
    simp

theorem keptAlike (alike : Alike rowKey values (left ++ right)) (mem : row ∈ left) :
    (right.map rowKey).any (rowKey row = ·) = true ↔ values row ∈ bag right := by
  simp only [any_eq_true,decide_eq_true_eq,exists_eq_right',bag,Multiset.mem_coe]
  exact memAlike alike (subset_append_right _ _) (mem_append_left _ mem)

theorem suppliedAlike (alike : Alike rowKey values (left ++ right)) (mem : row ∈ left) :
    supplyOf (right.map rowKey) (rowKey row) = supplyOf (right.map values) (values row) :=
  countAlike alike (subset_append_right _ _) (mem_append_left _ mem)

theorem distinctAlike (alike : Alike rowKey values (left ++ right)) (keep) :
    bag (firstSeen rowKey [] (left.filter keep)) = (bag (left.filter keep)).dedup := by
  have part : Alike rowKey values (left.filter keep) :=
    alike.subset (List.Subset.trans (filter_subset_self _) (subset_append_left _ _))
  have same := @firstSeenAlike _ _ _ _ _ rowKey values [] (left.filter keep) part
  rw [map_nil,map_nil] at same
  simp [same,bag,firstSeenBag]

theorem bagFilter (test) [DecidablePred test]
    (same : ∀ row ∈ left, keep row = true ↔ test (values row)) : bag (left.filter keep) = (bag left).filter test := by
  simp only [bag,Multiset.filter_coe,filter_map,Multiset.coe_eq_coe]
  have equal : left.filter keep = left.filter ((fun v => decide (test v)) ∘ values) := by
    refine filter_congr fun row mem => ?_
    rw [Bool.eq_iff_iff,same row mem]
    simp
  rw [equal]

theorem intersectBag (alike : Alike rowKey values (left ++ right)) (all) :
    bag (intersectRows left right all) = positional .intersect all (bag left) (bag right) := by
  cases all with
  | true =>
    have same := splitAlike (alike.subset (subset_append_left left right)) fun row mem => suppliedAlike alike mem
    simp [intersectRows,positional,same,bag,drawnBag]
  | false =>
    simp only [intersectRows,positional,Bool.false_eq_true,if_false,distinctAlike alike]
    rw [bagFilter (· ∈ bag right) fun row mem => keptAlike alike mem]
    refine Multiset.dedup_ext.mpr fun v => ?_
    rw [Multiset.mem_filter,Multiset.mem_inter]

theorem exceptBag (alike : Alike rowKey values (left ++ right)) (all) :
    bag (exceptRows left right all) = positional .except all (bag left) (bag right) := by
  cases all with
  | true =>
    have same := splitAlike (alike.subset (subset_append_left left right)) fun row mem => suppliedAlike alike mem
    simp [exceptRows,positional,same,bag,undrawnBag]
  | false =>
    simp only [exceptRows,positional,Bool.false_eq_true,if_false,distinctAlike alike]
    rw [bagFilter (· ∉ bag right) fun row mem => by rw [Bool.not_eq_true',← Bool.not_eq_true,keptAlike alike mem]]

theorem combineBag (alike : Alike rowKey values (left ++ alignSetOpRows left right))
    (same : bag (alignSetOpRows left right) = bag right) (all) :
    bag (combineSetOp left right op all) = positional op all (bag left) (bag right) := by
  rw [← same]
  cases op with
  | union => exact unionBag alike all
  | intersect => exact intersectBag alike all
  | except => exact exceptBag alike all

end

section
variable {first row : Row}

theorem valuesRenamed (width : row.length = first.length) : values (renamed first row) = values row := by
  have long : (values row).length ≤ (sortedColNames first).length := by
    simp [values,sortedColNames,length_insertionSort,length_map,width]
  exact map_snd_zip long

theorem bagAligned (wide : ∀ row ∈ left, row.length = n)
    (same : ∀ row ∈ right, row.length = n) : bag (alignSetOpRows left right) = bag right := by
  cases left with
  | nil => rfl
  | cons first =>
    simp only [bag,alignSetOpRows,map_map]
    refine congrArg _ (map_congr_left fun row mem => ?_)
    exact valuesRenamed ((same row mem).trans (wide first mem_cons_self).symm)

end

structure Faithful (left right : Row → Prop) : Prop where
  onLeft : ∀ {a b}, left a → left b → (rowKey a = rowKey b ↔ values a = values b)
  onRight : ∀ {a b}, right a → right b → (rowKey a = rowKey b ↔ values a = values b)
  onRenamed : ∀ {first a b}, left first → right a → right b →
    (rowKey (renamed first a) = rowKey (renamed first b) ↔ values a = values b)
  across : ∀ {first a b}, left first → left a → right b →
    (rowKey a = rowKey (renamed first b) ↔ values a = values b)

section
variable {P Q : Row → Prop} {n : Nat}

theorem faithfulAlike (faithful : Faithful P Q) (wideLeft : ∀ row, P row → row.length = n)
    (wideRight : ∀ row, Q row → row.length = n) (inLeft : ∀ row ∈ left, P row)
    (inRight : ∀ row ∈ right, Q row) : Alike rowKey values (left ++ alignSetOpRows left right) := by
  cases left with
  | nil =>
    intro a here b there
    exact faithful.onRight (inRight a here) (inRight b there)
  | cons first =>
    have head := inLeft first mem_cons_self
    have kept : ∀ {row}, row ∈ right → values (renamed first row) = values row := fun mem =>
      valuesRenamed ((wideRight _ (inRight _ mem)).trans (wideLeft _ head).symm)
    intro a here b there
    rcases mem_append.mp here with leftA | rightA <;> rcases mem_append.mp there with leftB | rightB
    · exact faithful.onLeft (inLeft a leftA) (inLeft b leftB)
    · obtain ⟨row,mem,rfl⟩ := mem_map.mp rightB
      rw [kept mem]
      exact faithful.across head (inLeft a leftA) (inRight row mem)
    · obtain ⟨row,mem,rfl⟩ := mem_map.mp rightA
      rw [kept mem,eq_comm,faithful.across head (inLeft b leftB) (inRight row mem),eq_comm]
    · obtain ⟨row,mem,rfl⟩ := mem_map.mp rightA
      obtain ⟨other,mem',rfl⟩ := mem_map.mp rightB
      rw [kept mem,kept mem']
      exact faithful.onRenamed head (inRight row mem) (inRight other mem')

theorem pairTold (same : bag (firstSeen rowKey [] [a,b]) = (bag [a,b]).dedup) :
    rowKey a = rowKey b ↔ values a = values b := by
  have sizes := congrArg Multiset.card same
  by_cases keys : rowKey a = rowKey b <;> by_cases equal : values a = values b
  · exact iff_of_true keys equal
  · simp [bag,firstSeen,keys,equal] at sizes
  · have apart : ¬rowKey b = rowKey a := fun eq => keys eq.symm
    simp [bag,firstSeen,apart,equal] at sizes
  · exact iff_of_false keys equal

def Positional (P Q : Row → Prop) : Prop :=
  ∀ left right, (∀ row ∈ left, P row) → (∀ row ∈ right, Q row) → ∀ op all,
    bag (combineSetOp left right op all) = positional op all (bag left) (bag right)

theorem positionalLeft (correct : Positional P Q) (inA : P a) (inB : P b) :
    rowKey a = rowKey b ↔ values a = values b := by
  have union := correct [a,b] [] (by simp [inA,inB]) (by simp) .union false
  exact pairTold (by simpa [combineSetOp,alignSetOpRows,unionRows,positional,bag] using union)

theorem positionalRight (correct : Positional P Q) (inA : Q a) (inB : Q b) :
    rowKey a = rowKey b ↔ values a = values b := by
  have union := correct [] [a,b] (by simp) (by simp [inA,inB]) .union false
  exact pairTold (by simpa [combineSetOp,alignSetOpRows,unionRows,positional,bag] using union)

theorem commonPart (told : rowKey first = rowKey a ↔ values first = values a) :
    values a ∈ bag (combineSetOp [first,a] [b] .intersect false) ↔ rowKey a = rowKey (renamed first b) := by
  simp only [combineSetOp,alignSetOpRows,intersectRows,map_cons,map_nil,Bool.false_eq_true,if_false]
  by_cases equal : values first = values a
  · have keys := told.mpr equal
    by_cases here : rowKey a = rowKey (renamed first b) <;> simp [bag,firstSeen,keys,here,equal]
  · have keys : ¬rowKey first = rowKey a := fun same => equal (told.mp same)
    by_cases here : rowKey a = rowKey (renamed first b)
    · have other : ¬rowKey first = rowKey (renamed first b) := fun same => keys (same.trans here.symm)
      simp [bag,firstSeen,here,other]
    · by_cases other : rowKey first = rowKey (renamed first b) <;>
        simp [bag,firstSeen,here,other,Ne.symm equal]

theorem positionalAcross (correct : Positional P Q) (head : P first) (inA : P a) (inB : Q b) :
    rowKey a = rowKey (renamed first b) ↔ values a = values b := by
  rw [← commonPart (positionalLeft correct head inA),
    correct [first,a] [b] (by simp [head,inA]) (by simp [inB]) .intersect false]
  simp [positional,bag]

theorem positionalRenamed (correct : Positional P Q) (head : P first) (inA : Q a) (inB : Q b) :
    rowKey (renamed first a) = rowKey (renamed first b) ↔ values a = values b := by
  have atA := positionalAcross correct head head inA
  have atB := positionalAcross correct head head inB
  by_cases likeA : values first = values a
  · rw [← atA.mpr likeA,atB,likeA]
  by_cases likeB : values first = values b
  · rw [← atB.mpr likeB,eq_comm,atA,likeB,eq_comm]
  have union := correct [first] [a,b] (by simp [head]) (by simp [inA,inB]) .union false
  have sizes := congrArg Multiset.card union
  have apartA : ¬rowKey (renamed first a) = rowKey first := fun same => likeA (atA.mp same.symm)
  have apartB : ¬rowKey (renamed first b) = rowKey first := fun same => likeB (atB.mp same.symm)
  by_cases keys : rowKey (renamed first a) = rowKey (renamed first b) <;> by_cases equal : values a = values b
  · exact iff_of_true keys equal
  · simp [combineSetOp,alignSetOpRows,unionRows,positional,bag,firstSeen,apartB,keys,equal,likeA,likeB] at sizes
  · have apart : ¬rowKey (renamed first b) = rowKey (renamed first a) := fun eq => keys eq.symm
    simp [combineSetOp,alignSetOpRows,unionRows,positional,bag,firstSeen,apartA,apartB,apart,equal,likeB] at sizes
  · exact iff_of_false keys equal

end

section

def plainText : Value → Bool
  | .bytes b => b.all (· ≠ 0)
  | _ => false

theorem plainBytes (plain : plainText v = true) : ∃ b, v = .bytes b ∧ (0 : UInt8) ∉ b := by
  cases v with
  | bytes b => exact ⟨b,rfl,fun mem => by simpa using all_eq_true.mp plain 0 mem⟩
  | _ => cases plain

def Texts (header : List String) (row : Row) : Prop := row.map Prod.fst = header ∧ ∀ v ∈ values row, plainText v = true

theorem textsZip (texts : Texts header row) : row = header.zip (values row) := by
  rw [← texts.1]
  exact zip_of_prod rfl rfl

theorem byNameSorted {header : List String} (sorted : header.Pairwise (· ≤ ·))
    (wide : vals.length = header.length) : byName (header.zip vals) = header.zip vals := by
  refine List.Pairwise.insertionSort_eq ?_
  have names : ((header.zip vals).map Prod.fst).Pairwise (· ≤ ·) := by
    rw [map_fst_zip wide.ge]
    exact sorted
  exact pairwise_map.mp names

theorem fieldsInjective {header : List String} (wide : left.length = header.length)
    (wide' : right.length = header.length) (plain : ∀ v ∈ left, plainText v = true)
    (plain' : ∀ v ∈ right, plainText v = true)
    (keys : (header.zip left).flatMap fieldBytes = (header.zip right).flatMap fieldBytes) : left = right := by
  induction header generalizing left right with
  | nil => rw [length_eq_zero_iff.mp wide,length_eq_zero_iff.mp wide']
  | cons _ _ ih =>
    obtain ⟨v,_,rfl⟩ := exists_cons_of_length_eq_add_one wide
    obtain ⟨w,_,rfl⟩ := exists_cons_of_length_eq_add_one wide'
    obtain ⟨hereV,laterV⟩ := forall_mem_cons.mp plain
    obtain ⟨hereW,laterW⟩ := forall_mem_cons.mp plain'
    obtain ⟨b,rfl,clearB⟩ := plainBytes hereV
    obtain ⟨c,rfl,clearC⟩ := plainBytes hereW
    simp only [zip_cons_cons,flatMap_cons,fieldBytes,Value.asBytes,append_assoc,cons_append,
      nil_append,append_cancel_left_eq,List.cons.injEq,true_and] at keys
    obtain ⟨rfl,tails⟩ := cutUnique clearB clearC keys
    rw [ih (by simpa using wide) (by simpa using wide') laterV laterW tails]

variable {header other : List String}

theorem textsWide (texts : Texts header row) : (values row).length = header.length := by
  rw [← texts.1]
  simp [values,length_map]

theorem rowKeyTexts (sorted : header.Pairwise (· ≤ ·)) {row : Row} (texts : Texts header row) :
    rowKey row = (header.zip (values row)).flatMap fieldBytes := by
  unfold rowKey
  rw [← byNameSorted sorted (textsWide texts),← textsZip texts]

theorem rowKeyRenamed (sorted : header.Pairwise (· ≤ ·)) {first row : Row} (texts : Texts header first)
    (wide : (values row).length = header.length) :
    rowKey (renamed first row) = (header.zip (values row)).flatMap fieldBytes := by
  have names : sortedColNames first = header := by
    unfold sortedColNames
    rw [texts.1]
    exact List.Pairwise.insertionSort_eq sorted
  unfold rowKey renamed
  rw [names,byNameSorted sorted wide]

theorem keysIff {left right : List Value} (wide : left.length = header.length) (wide' : right.length = header.length)
    (plain : ∀ v ∈ left, plainText v = true) (plain' : ∀ v ∈ right, plainText v = true) :
    (header.zip left).flatMap fieldBytes = (header.zip right).flatMap fieldBytes ↔ left = right :=
  ⟨fieldsInjective wide wide' plain plain',fun same => same ▸ rfl⟩

theorem sortedFaithful (sorted : header.Pairwise (· ≤ ·)) (sorted' : other.Pairwise (· ≤ ·))
    (same : other.length = header.length) : Faithful (Texts header) (Texts other) where
  onLeft a b := by
    rw [rowKeyTexts sorted a,rowKeyTexts sorted b,keysIff (textsWide a) (textsWide b) a.2 b.2]
  onRight a b := by
    rw [rowKeyTexts sorted' a,rowKeyTexts sorted' b,keysIff (textsWide a) (textsWide b) a.2 b.2]
  onRenamed first a b := by
    have wideA := (textsWide a).trans same
    have wideB := (textsWide b).trans same
    rw [rowKeyRenamed sorted first wideA,rowKeyRenamed sorted first wideB,keysIff wideA wideB a.2 b.2]
  across first a b := by
    have wideB := (textsWide b).trans same
    rw [rowKeyTexts sorted a,rowKeyRenamed sorted first wideB,keysIff (textsWide a) wideB a.2 b.2]

end

def residents : List Row := [[("name",.bytes [65]),("city",.bytes [66])]]

end NoeDB.SetOps
