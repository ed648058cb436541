import NoeDB.SqlValue

/-! Packed rows and the keys of rows, cells, index entries, statistics and the
primary-key marker (noedb-storage: rowpack.rs, engine.rs `prefix_end`; noedb-planner:
index.rs, pk.rs, stats.rs; noedb-engine: machine.rs `row_key`, dml.rs `row_prefix`). -/
namespace NoeDB.RowPack
open ByteString Text StorageTypes List

def rowpackMagic : Bytes := [78,82,80,49]

def encodeColumn (column : String × Bytes) : Bytes :=
  let name := utf8 column.1
  let nameLen := min name.length 65535
  let valLen := min column.2.length 4294967295
  leBytes 2 nameLen ++ name.take nameLen ++ leBytes 4 valLen ++ column.2.take valLen

def encodeRow (columns : List (String × Bytes)) : Bytes :=
  let count := min columns.length 65535
  rowpackMagic ++ leBytes 2 count ++ (columns.take count).flatMap encodeColumn

def isPackedRow (bytes : Bytes) : Bool := 6 ≤ bytes.length ∧ bytes.take 4 = rowpackMagic

def decodeColumns : Nat → Bytes → Option (List (String × Bytes))
  | 0,_ => some []
  | count+1,bytes =>
      if bytes.length < 2 then none
      else
        let nameLen := ofLeBytes (bytes.take 2)
        let bytes := bytes.drop 2
        if bytes.length < nameLen+4 then none
        else
          let name := fromUtf8Lossy (bytes.take nameLen)
          let bytes := bytes.drop nameLen
          let valLen := ofLeBytes (bytes.take 4)
          let bytes := bytes.drop 4
          if bytes.length < valLen then none
          else (decodeColumns count (bytes.drop valLen)).map ((name,bytes.take valLen) :: ·)

def decodeRow (bytes : Bytes) : Option (List (String × Bytes)) :=
  if isPackedRow bytes then decodeColumns (ofLeBytes (slice bytes 4 6)) (bytes.drop 6) else none

def Packable (columns : List (String × Bytes)) : Prop :=
  columns.length ≤ 65535 ∧ ∀ c ∈ columns, (utf8 c.1).length ≤ 65535 ∧ c.2.length ≤ 4294967295

instance (columns) : Decidable (Packable columns) := inferInstanceAs (Decidable (_ ∧ _))

theorem lengthTaken (fits : n < 256^width) (rest) : ofLeBytes ((leBytes width n ++ rest).take width) = n := by
  rw [take_left' (leBytesLength ..),ofLeBytesWritten fits]

theorem lengthDropped (width n rest) : (leBytes width n ++ rest).drop width = rest := drop_left' (leBytesLength ..)

theorem encodedColumn (short : (utf8 column.1).length ≤ 65535) (small : column.2.length ≤ 4294967295) (rest) :
    encodeColumn column ++ rest =
      leBytes 2 (utf8 column.1).length ++ (utf8 column.1 ++ (leBytes 4 column.2.length ++ (column.2 ++ rest))) := by
  simp only [encodeColumn,Nat.min_eq_left short,Nat.min_eq_left small,take_length,append_assoc]

theorem decodeColumn (short : (utf8 column.1).length ≤ 65535) (small : column.2.length ≤ 4294967295) (count rest) :
    decodeColumns (count+1) (encodeColumn column ++ rest) = (decodeColumns count rest).map (column :: ·) := by
  rw [encodedColumn short small,decodeColumns,if_neg (by simp only [length_append,leBytesLength]; omega)]
  simp (disch := omega) only [lengthTaken,lengthDropped,take_left,drop_left]
  rw [if_neg (by simp)]
  simp only [lossyEncoded]
  rw [if_neg (by simp)]

theorem decodeEncodedColumns (fits : ∀ c ∈ columns, (utf8 c.1).length ≤ 65535 ∧ c.2.length ≤ 4294967295) :
    decodeColumns columns.length (columns.flatMap encodeColumn) = some columns := by
  induction columns with
  | nil => rfl
  | cons _ _ ih =>
    obtain ⟨⟨short,small⟩,later⟩ := forall_mem_cons.mp fits
    rw [length_cons,flatMap_cons,decodeColumn short small,ih later]
    rfl

theorem encodedRow (fits : Packable columns) : ofLeBytes (slice (encodeRow columns) 4 6) = columns.length ∧
    (encodeRow columns).drop 6 = columns.flatMap encodeColumn ∧ isPackedRow (encodeRow columns) = true := by
  have shape : encodeRow columns = rowpackMagic ++ (leBytes 2 columns.length ++ columns.flatMap encodeColumn) := by
    simp [encodeRow,Nat.min_eq_left fits.1,take_length,append_assoc]
  refine ⟨?_,?_,by simp [isPackedRow,shape,rowpackMagic]⟩
  · rw [shape,sliceSkip (le_refl 4)]
    exact lengthTaken (Nat.lt_succ_of_le fits.1) _
  · rw [shape,← append_assoc]
    exact drop_left' (by simp [rowpackMagic])

theorem decodeEncodedRow (fits : Packable columns) : decodeRow (encodeRow columns) = some columns := by
  obtain ⟨count,body,packed⟩ := encodedRow fits
  rw [decodeRow,if_pos packed,count,body,decodeEncodedColumns fits.2]

def prefixEnd (start : Bytes) : Bytes := following start

def tablePrefix (table : String) : Bytes := utf8 table ++ [0]

def packedRowKey (table rowId : String) : Bytes := utf8 table ++ 0 :: utf8 rowId

def rowPrefix (table rowId : String) : Bytes := utf8 table ++ 0 :: (utf8 rowId ++ [0])

def rowKey (table rowId column : String) : Bytes := utf8 table ++ 0 :: (utf8 rowId ++ 0 :: utf8 column)

/- `\x02idx_meta\0`, `\x02idx\0`, `\x02pk_meta\0` and `\x03stats\0`. -/
def metaPrefix : Bytes := 2 :: (utf8 "idx_meta" ++ [0])
def entriesPrefix : Bytes := 2 :: (utf8 "idx" ++ [0])
def pkMarkerPrefix : Bytes := 2 :: (utf8 "pk_meta" ++ [0])
def statsPrefix : Bytes := 3 :: (utf8 "stats" ++ [0])

def metaKey (table column : String) : Bytes := metaPrefix ++ (utf8 table ++ 0 :: utf8 column)

def entryPrefix (table column : String) : Bytes := entriesPrefix ++ (utf8 table ++ 0 :: (utf8 column ++ [0]))

def entryKey (table column : String) (value rowId : Bytes) : Bytes :=
  entryPrefix table column ++ (value ++ 0 :: rowId)

def markerKey (table : String) : Bytes := pkMarkerPrefix ++ utf8 table

end NoeDB.RowPack
