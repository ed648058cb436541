import NoeDB.Plans
import NoeDB.SqlEval
import Mathlib.Order.Compare

/-! The order of rows under `ORDER BY` (noedb-planner: executor.rs, `compare_rows`), beside
the comparison of values in expressions. -/
namespace NoeDB.RowOrder
open ByteString Text SqlValue SqlEval Plans

def sortField (column : String) (row : Row) : Option Value :=
  (row.find? fun field => columnNameMatches field.1 column).map Prod.snd

def ordering {β : Type} [LinearOrder β] (x y : β) : Ordering := cmp x y

/- A null comes after all other values, a missing column after that. -/
def compareSortValues : Option Value → Option Value → Ordering
  | none,none => .eq
  | some .null,some .null => .eq
  | none,some _ => .gt
  | some .null,some _ => .gt
  | some _,none => .lt
  | some _,some .null => .lt
  | some a,some b => ordering a.asBytes b.asBytes

def rowValue (row : Row) (col : String) : Value := (sortField col row).getD .null

def compareRows : List (String × Bool) → Row → Row → Ordering
  | [],_,_ => .eq
  | (column,asc) :: keys,a,b =>
      match compareSortValues (sortField column a) (sortField column b) with
      | .eq => compareRows keys a b
      | order => if asc then order else order.swap

def sortRows (keys : List (String × Bool)) (rows : List Row) : List Row :=
  rows.insertionSort fun a b => compareRows keys a b ≠ .gt

section

theorem cmpTrans {α β : Type} [LinearOrder β] (rank : α → β) : Std.TransCmp fun a b => ordering (rank a) (rank b) where
  eq_swap := (cmp_swap _ _).symm
  isLE_trans {a b c} first second := by
    have below : ∀ {x y : β}, (cmp x y).isLE = true ↔ x ≤ y := by
      intro x y
      rcases lt_trichotomy x y with less | same | more
      · rw [(cmp_eq_lt_iff x y).mpr less]
        exact iff_of_true rfl less.le
      · rw [(cmp_eq_eq_iff x y).mpr same]
        exact iff_of_true rfl same.le
      · rw [(cmp_eq_gt_iff x y).mpr more]
        exact iff_of_false Bool.false_ne_true more.not_ge
    exact below.mpr ((below.mp first).trans (below.mp second))

def sortTag : Option Value → Nat
  | none => 2
  | some .null => 1
  | some _ => 0

def sortBytes : Option Value → Bytes
  | none => []
  | some value => value.asBytes

theorem compareTags (a b) :
    compareSortValues a b = (ordering (sortTag a) (sortTag b)).then (ordering (sortBytes a) (sortBytes b)) := by
  cases a with
  | none =>
    cases b with
    | none => rfl
    | some b => cases b <;> rfl
  | some a =>
    cases b with
    | none => cases a <;> rfl
    | some b => cases a <;> cases b <;> rfl

def compareColumn (key : String × Bool) (a b : Row) : Ordering :=
  if key.2 then compareSortValues (sortField key.1 a) (sortField key.1 b)
  else compareSortValues (sortField key.1 b) (sortField key.1 a)

theorem compareColumnTrans (key : String × Bool) : Std.TransCmp (compareColumn key) := by
  obtain ⟨column,asc⟩ := key
  have upward : Std.TransCmp (compareColumn (column,true)) := by
    have tags : Std.TransCmp fun a b : Row => ordering (sortTag (sortField column a)) (sortTag (sortField column b)) :=
      cmpTrans fun row : Row => sortTag (sortField column row)
    have bytes : Std.TransCmp fun a b : Row => ordering (sortBytes (sortField column a)) (sortBytes (sortField column b)) :=
      cmpTrans fun row : Row => sortBytes (sortField column row)
    have both : compareColumn (column,true) = compareLex
        (fun a b => ordering (sortTag (sortField column a)) (sortTag (sortField column b)))
        (fun a b => ordering (sortBytes (sortField column a)) (sortBytes (sortField column b))) := by
      funext a b
      exact compareTags _ _
    rw [both]
    infer_instance
  cases asc with
  | true => exact upward
  | false => exact @Std.TransCmp.opposite _ _ upward

theorem compareRowsLex (key keys) :
    compareRows (key :: keys) = compareLex (compareColumn key) (compareRows keys) := by
  funext a b
  obtain ⟨column,asc⟩ := key
  have swapped := (compareColumnTrans (column,true)).eq_swap (a := b) (b := a)
  simp only [compareColumn,if_true] at swapped
  simp only [compareRows,compareLex,compareColumn]
  cases asc with
  | true => cases compareSortValues (sortField column a) (sortField column b) <;> rfl
  | false =>
    simp only [Bool.false_eq_true,if_false,swapped]
    cases compareSortValues (sortField column a) (sortField column b) <;> rfl

theorem compareRowsTrans (keys) : Std.TransCmp (compareRows keys) := by
  induction keys with
  | nil => exact { eq_swap := rfl, isLE_trans := fun _ _ => rfl }
  | cons key =>
    rw [compareRowsLex]
    have first := compareColumnTrans key
    infer_instance

theorem rowsTotal (keys a b) : compareRows keys a b ≠ .gt ∨ compareRows keys b a ≠ .gt := by
  rw [(compareRowsTrans keys).eq_swap (a := b) (b := a)]
  cases compareRows keys a b <;> simp

theorem rowsTrans (first : compareRows keys a b ≠ .gt) (second : compareRows keys b c ≠ .gt) :
    compareRows keys a c ≠ .gt := by
  simp only [← Ordering.isLE_iff_ne_gt] at first second ⊢
  exact (compareRowsTrans keys).isLE_trans first second

theorem sortedRows (keys rows) : (sortRows keys rows).Pairwise fun a b => compareRows keys a b ≠ .gt := by
  have total : Std.Total fun a b : Row => compareRows keys a b ≠ .gt := ⟨rowsTotal keys⟩
  have transitive : IsTrans Row fun a b : Row => compareRows keys a b ≠ .gt := ⟨fun _ _ _ => rowsTrans⟩
  exact List.pairwise_insertionSort _ rows

theorem sortRowsPerm (keys rows) : (sortRows keys rows).Perm rows := List.perm_insertionSort _ rows

end
section

/- The number that the eight bytes of an integer or a timestamp show without its sign. -/
def pattern : Value → Option UInt64
  | .integer n => some n.toUInt64
  | .timestamp n => some n.toUInt64
  | _ => none

def Whole : Value → Prop
  | .integer _ => True
  | .timestamp _ => True
  | .bytes b => ∃ n, b = utf8 (intText n)
  | _ => False

def Ascending (x y : Value) : Prop :=
  match pattern x,pattern y with
  | some m,some n => m < n
  | _,_ => x.asBytes < y.asBytes

theorem patternBytes (number : pattern x = some m) : x.asBytes = beBytes 8 m.toNat := by
  cases x <;> cases number <;> rfl

theorem ascendingBytes (x y) : x.asBytes < y.asBytes ↔ Ascending x y := by
  unfold Ascending
  split
  · rename_i m n first second
    rw [patternBytes first,patternBytes second,beBytesLt m.toNat_lt n.toNat_lt]
    exact UInt64.lt_iff_toNat_lt.symm
  · rfl

def Missing (field : Option Value) : Prop := field = none ∨ field = some .null

theorem missingTag (field) : Missing field ↔ sortTag field ≠ 0 := by
  unfold Missing
  cases field with
  | none => simp [sortTag]
  | some value => cases value <;> simp [sortTag]

theorem presentBelow (missing : Missing a) (present : ¬Missing b) : compareSortValues b a = .lt := by
  rw [missingTag] at missing present
  have below : ordering (sortTag b) (sortTag a) = .lt := (cmp_eq_lt_iff _ _).mpr (by omega)
  rw [compareTags,below]
  rfl

end
end NoeDB.RowOrder
