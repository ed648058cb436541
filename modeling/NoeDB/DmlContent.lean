import NoeDB.DmlRows

/-! The rows of a table as its keys give them: packed records overlaid by cells, one group
for every row id. What a statement makes of the groups of its table and of the others. -/
namespace NoeDB.DmlContent
open ByteString Text OrderedTable StorageTypes List Table
open RowPack Dml DmlRules DmlRows

section
variable {start : Bytes} {rows : Rows}

def cellColumn (start : Bytes) (e : Record) : String × Bytes := (fromUtf8Lossy (e.1.drop start.length),e.2)

def groupOf (start : Bytes) (pairs : List Record) (id : Bytes) : Gathered where
  packed := (findIn (start ++ id) pairs).bind decodeRow
  cells := (pairs.filter fun e => (start ++ (id ++ [0])).isPrefixOf e.1).map (cellColumn (start ++ (id ++ [0])))

def Gathered.isEmpty (gathered : Gathered) : Bool := gathered.packed.isNone && gathered.cells.isEmpty

def seenGroup (start : Bytes) (pairs : List Record) (id : Bytes) : Option Gathered :=
  if (0 : UInt8) ∈ id then none
  else if Gathered.isEmpty (groupOf start pairs id) then none
  else some (groupOf start pairs id)

theorem cutAtZero (found : bytes.idxOf? 0 = some pos) :
    (0 : UInt8) ∉ bytes.take pos ∧ bytes = bytes.take pos ++ 0 :: bytes.drop (pos+1) := by
  induction bytes generalizing pos with
  | nil => simp at found
  | cons _ _ ih =>
    rw [List.idxOf?_cons] at found
    split at found
    · rename_i zero
      cases Option.some.inj found
      simpa using zero
    · rename_i other
      obtain ⟨n,inside,rfl⟩ := Option.map_eq_some_iff.mp found
      obtain ⟨front,whole⟩ := ih inside
      refine ⟨?_,?_⟩
      · simp only [take_succ_cons,mem_cons,not_or]
        exact ⟨fun same => other (by simp [← same]),front⟩
      · simpa using whole

theorem prefixCell {id} (clear : (0 : UInt8) ∉ id) (clear' : (0 : UInt8) ∉ front)
    (whole : rest = front ++ 0 :: back) : (start ++ (id ++ [0])).isPrefixOf (start ++ rest) = true ↔ id = front := by
  rw [List.isPrefixOf_iff_prefix,List.prefix_append_right_inj,whole]
  constructor
  · rintro ⟨_,same⟩
    rw [append_assoc] at same
    exact (cutUnique clear clear' same).1
  · rintro rfl
    exact ⟨back,by simp⟩

theorem prefixPacked {id rest} (clear : (0 : UInt8) ∉ rest) :
    (start ++ (id ++ [0])).isPrefixOf (start ++ rest) = false := by
  rw [Bool.eq_false_iff]
  intro begins
  obtain ⟨_,same⟩ := (List.prefix_append_right_inj _).mp (List.isPrefixOf_iff_prefix.mp begins)
  exact clear (same ▸ by simp)

theorem otherKey {e : Record} (outside : ¬start.isPrefixOf e.1 = true) (id more) :
    e.1 ≠ start ++ id ∧ (start ++ more).isPrefixOf e.1 = false := by
  rw [List.isPrefixOf_iff_prefix] at outside
  refine ⟨fun same => outside ⟨id,same.symm⟩,Bool.eq_false_iff.mpr fun begins => outside ?_⟩
  exact (List.prefix_append _ _).trans (List.isPrefixOf_iff_prefix.mp begins)

theorem groupAppend (id) : groupOf start (pairs ++ [e]) id =
    ⟨((findIn (start ++ id) pairs).or (findIn (start ++ id) [e])).bind decodeRow, (groupOf start pairs id).cells ++
        if (start ++ (id ++ [0])).isPrefixOf e.1 then [cellColumn (start ++ (id ++ [0])) e] else []⟩ := by
  unfold groupOf
  rw [findInAppend,filter_append,map_append]
  cases begins : (start ++ (id ++ [0])).isPrefixOf e.1 <;> simp [begins]

theorem groupOther {id} (key : e.1 ≠ start ++ id)
    (cell : (start ++ (id ++ [0])).isPrefixOf e.1 = false) : groupOf start (pairs ++ [e]) id = groupOf start pairs id := by
  have absent : findIn (start ++ id) [e] = none := findInAbsent fun q mem => mem_singleton.mp mem ▸ key
  rw [groupAppend,absent,cell]
  simp [groupOf]

theorem seenOther {id} (key : e.1 ≠ start ++ id)
    (cell : (start ++ (id ++ [0])).isPrefixOf e.1 = false) : seenGroup start (pairs ++ [e]) id = seenGroup start pairs id := by
  simp [seenGroup,groupOther key cell]

theorem seenAt {id} (clear : (0 : UInt8) ∉ id)
    (found : grouped.find id = seenGroup start pairs id) : gatheredAt grouped id = groupOf start pairs id := by
  unfold gatheredAt
  rw [found,seenGroup,if_neg clear]
  split
  · rename_i empty
    simp only [Gathered.isEmpty,Bool.and_eq_true,Option.isNone_iff_eq_none,List.isEmpty_iff] at empty
    cases shape : groupOf start pairs id with
    | mk =>
      rw [shape] at empty
      simp only at empty
      rw [empty.1,empty.2]
      rfl
  · rfl

theorem gatherFinds {pairs : List Record} (behind : ∀ q ∈ pairs, q.1 ≠ e.1)
    (finds : ∀ id, grouped.find id = seenGroup start pairs id) (id) :
    (gather start grouped e).find id = seenGroup start (pairs ++ [e]) id := by
  unfold gather
  by_cases begins : start.isPrefixOf e.1 = true
  · rw [if_pos begins]
    obtain ⟨rest,shape⟩ := List.isPrefixOf_iff_prefix.mp begins
    have tail : e.1.drop start.length = rest := by rw [← shape,drop_left]
    simp only [tail]
    cases cut : rest.idxOf? 0 with
    | some pos =>
      obtain ⟨clear,whole⟩ := cutAtZero cut
      simp only [findInsert]
      by_cases same : rest.take pos = id
      · rw [if_pos same]
        subst same
        have absent : findIn (start ++ rest.take pos) [e] = none := by
          refine findInAbsent fun q mem => ?_
          rw [mem_singleton.mp mem,← shape]
          intro equal
          have inside : (0 : UInt8) ∈ rest := by rw [whole]; simp
          exact clear (append_cancel_left equal ▸ inside)
        have cell : (start ++ (rest.take pos ++ [0])).isPrefixOf e.1 = true := by
          rw [← shape]
          exact (prefixCell clear clear whole).mpr rfl
        have column : cellColumn (start ++ (rest.take pos ++ [0])) e = (fromUtf8Lossy (rest.drop (pos+1)),e.2) := by
          unfold cellColumn
          have split : e.1 = (start ++ (rest.take pos ++ [0])) ++ rest.drop (pos+1) := by
            rw [← shape,append_assoc,append_assoc]
            exact congrArg (start ++ ·) whole
          rw [split,drop_left]
        have full : Gathered.isEmpty (groupOf start (pairs ++ [e]) (rest.take pos)) = false := by
          rw [groupAppend,cell]
          simp [Gathered.isEmpty]
        rw [seenGroup,if_neg clear,full,groupAppend,cell,column,absent,seenAt clear (finds _)]
        simp [groupOf]
      · rw [if_neg same,finds]
        by_cases zero : (0 : UInt8) ∈ id
        · simp [seenGroup,zero]
        · refine (seenOther ?_ ?_).symm
          · rw [← shape]
            intro equal
            have inside : (0 : UInt8) ∈ rest := by rw [whole]; simp
            exact zero (append_cancel_left equal ▸ inside)
          · rw [← shape,Bool.eq_false_iff]
            exact fun cell => same ((prefixCell zero clear whole).mp cell).symm
    | none =>
      have clear : (0 : UInt8) ∉ rest := by simpa using cut
      have cell : ∀ other, (start ++ (other ++ [0])).isPrefixOf e.1 = false := fun other => shape ▸ prefixPacked clear
      have others : id ≠ rest → grouped.find id = seenGroup start (pairs ++ [e]) id := by
        intro other
        rw [finds]
        refine (seenOther (fun equal => other ?_) (cell id)).symm
        exact (append_cancel_left (shape.trans equal)).symm
      have absent : findIn (start ++ rest) pairs = none := findInAbsent fun q mem => shape ▸ behind q mem
      have here : findIn (start ++ rest) [e] = some e.2 := by simp [findIn,shape]
      have group : groupOf start (pairs ++ [e]) rest = ⟨decodeRow e.2,(groupOf start pairs rest).cells⟩ := by
        rw [groupAppend,absent,here,cell]
        simp
      have before : groupOf start pairs rest = ⟨none,(groupOf start pairs rest).cells⟩ := by
        simp [groupOf,absent]
      cases decoded : decodeRow e.2 with
      | none =>
        by_cases same : id = rest
        · subst same
          rw [finds]
          simp only [seenGroup,group,decoded]
          rw [before]
        · exact others same
      | some =>
        simp only [findInsert]
        by_cases same : rest = id
        · subst same
          rw [if_pos rfl,seenGroup,if_neg clear,group,decoded,seenAt clear (finds _)]
          simp [Gathered.isEmpty]
        · rw [if_neg same]
          exact others (Ne.symm same)
  · rw [if_neg begins,finds]
    obtain ⟨key,-⟩ := otherKey begins id []
    exact (seenOther key (otherKey begins id _).2).symm

theorem gatheredFinds (asc : Ascending pairs) (id) :
    (pairs.foldl (gather start) empty).find id = seenGroup start pairs id := by
  induction pairs using List.reverseRecOn generalizing id with
  | nil => simp [seenGroup,groupOf,Gathered.isEmpty,findIn]
  | append_singleton _ e ih =>
    obtain ⟨front,-,behind⟩ := pairwise_append.mp asc
    rw [foldl_append,foldl_cons,foldl_nil]
    exact gatherFinds (fun q mem => ne_of_lt (behind q mem e (mem_singleton.mpr rfl))) (fun id => ih front id) id

end

section
variable {rows after : Rows} {table : String} {id : Bytes}

def groups (table : String) (rows : Rows) : Table Bytes Gathered :=
  (rowsUnder (tablePrefix table) rows).foldl (gather (tablePrefix table)) Table.empty

theorem underAgree (same : ∀ key, start <+: key → after.find key = rows.find key) :
    rowsUnder start after = rowsUnder start rows := by
  refine entriesExt (after.ascending.filter _) (rows.ascending.filter _) fun e => ?_
  obtain ⟨key,_⟩ := e
  unfold rowsUnder
  rw [mem_filter,mem_filter,memIff,memIff,List.isPrefixOf_iff_prefix]
  exact and_congr_left fun begins => by rw [same key begins]

def OfRow (table : String) (id key : Bytes) : Prop :=
  key = tablePrefix table ++ id ∨ tablePrefix table ++ (id ++ [0]) <+: key

theorem ofRowUnique (clear : (0 : UInt8) ∉ id) (clear' : (0 : UInt8) ∉ other)
    (of : OfRow table id key) (of' : OfRow table other key) : id = other := by
  rcases of with rfl | ⟨rest,rfl⟩
  · rcases of' with same | begins
    · exact append_cancel_left same
    · have outside := @prefixPacked (tablePrefix table) other id clear
      rw [List.isPrefixOf_iff_prefix.mpr begins] at outside
      cases outside
  · rw [append_assoc] at of'
    rcases of' with same | begins
    · have inside : (0 : UInt8) ∈ other := append_cancel_left same ▸ by simp
      exact absurd inside clear'
    · have whole : id ++ [0] ++ rest = id ++ 0 :: rest := by simp
      exact ((prefixCell clear' clear whole).mp (List.isPrefixOf_iff_prefix.mpr begins)).symm

theorem ofRowTable (of : OfRow table id key) : tablePrefix table <+: key := by
  rcases of with rfl | begins
  · exact ⟨id,rfl⟩
  · exact (List.prefix_append _ _).trans begins

def rowGroup (table : String) (rows : Rows) (id : Bytes) : Gathered where
  packed := (rows.find (tablePrefix table ++ id)).bind decodeRow
  cells := (rowsUnder (tablePrefix table ++ (id ++ [0])) rows).map (cellColumn (tablePrefix table ++ (id ++ [0])))

theorem groupRowGroup : groupOf (tablePrefix table) (rowsUnder (tablePrefix table) rows) id = rowGroup table rows id := by
  have packed : findIn (tablePrefix table ++ id) (rowsUnder (tablePrefix table) rows) =
      rows.find (tablePrefix table ++ id) := by
    unfold rowsUnder
    rw [findInFilter rows.ascending]
    have begins : (tablePrefix table).isPrefixOf (tablePrefix table ++ id) = true :=
      List.isPrefixOf_iff_prefix.mpr ⟨id,rfl⟩
    unfold find
    cases findIn (tablePrefix table ++ id) rows.entries <;> simp [begins]
  have cells : (rowsUnder (tablePrefix table) rows).filter
      (fun e => (tablePrefix table ++ (id ++ [0])).isPrefixOf e.1) = rowsUnder (tablePrefix table ++ (id ++ [0])) rows := by
    unfold rowsUnder
    rw [filter_filter]
    refine filter_congr fun e _ => ?_
    cases begins : (tablePrefix table ++ (id ++ [0])).isPrefixOf e.1 with
    | false => rfl
    | true =>
      have outer := (List.prefix_append _ _).trans (List.isPrefixOf_iff_prefix.mp begins)
      rw [List.isPrefixOf_iff_prefix.mpr outer]
      rfl
  simp [groupOf,rowGroup,packed,cells]

theorem groupsFind (table : String) (rows id) : (groups table rows).find id =
    if (0 : UInt8) ∈ id then none
    else if Gathered.isEmpty (rowGroup table rows id) then none else some (rowGroup table rows id) := by
  have asc : Ascending (rowsUnder (tablePrefix table) rows) := rows.ascending.filter _
  unfold groups
  rw [gatheredFinds asc,seenGroup,groupRowGroup]

theorem rowGroupAgree (same : ∀ key, OfRow table id key → after.find key = rows.find key) :
    rowGroup table after id = rowGroup table rows id := by
  unfold rowGroup
  rw [same _ (.inl rfl),underAgree fun key begins => same key (.inr begins)]

theorem groupsOther (clear : (0 : UInt8) ∉ id) (differs : other ≠ id)
    (same : ∀ key, ¬OfRow table id key → after.find key = rows.find key) :
    (groups table after).find other = (groups table rows).find other := by
  rw [groupsFind,groupsFind]
  by_cases zero : (0 : UInt8) ∈ other
  · rw [if_pos zero,if_pos zero]
  · rw [if_neg zero,if_neg zero,rowGroupAgree fun key of => same key fun of' => differs (ofRowUnique zero clear of of')]

theorem groupsPut (clear : (0 : UInt8) ∉ id)
    (same : ∀ key, ¬OfRow table id key → after.find key = rows.find key) (now : rowGroup table after id = group)
    (full : Gathered.isEmpty group = false) : groups table after = (groups table rows).insert id group := by
  refine tableExt fun other => ?_
  rw [findInsert]
  split
  · rename_i here
    rw [← here,groupsFind,if_neg clear,now,full]
    rfl
  · rename_i differs
    exact groupsOther clear (Ne.symm differs) same

theorem groupsGone (clear : (0 : UInt8) ∉ id) (same : ∀ key, ¬OfRow table id key → after.find key = rows.find key)
    (now : rowGroup table after id = ⟨none,[]⟩) : groups table after = (groups table rows).erase id := by
  refine tableExt fun other => ?_
  rw [findErase]
  split
  · rename_i here
    rw [← here,groupsFind,if_neg clear,now]
    rfl
  · rename_i differs
    exact groupsOther clear (Ne.symm differs) same

theorem groupsElsewhere (single : (0 : UInt8) ∉ utf8 table) (single' : (0 : UInt8) ∉ utf8 other)
    (differs : other ≠ table) (same : ∀ key, ¬tablePrefix table <+: key → after.find key = rows.find key) :
    groups other after = groups other rows := by
  unfold groups
  rw [underAgree fun key begins => same key fun begins' => ?_]
  obtain ⟨_,rfl⟩ := begins
  obtain ⟨_,whole⟩ := begins'
  simp only [tablePrefix,append_assoc,cons_append,nil_append] at whole
  exact differs (utf8Injective (cutUnique single single' whole).1).symm

end

section
variable {rows : Rows} {table : String}

def ids (table : String) (rows : Rows) : List String := (tableRows table rows).map Prod.fst

def groupedRow (e : Bytes × Gathered) : String × List (String × Bytes) := (fromUtf8Lossy e.1,e.2.row)

theorem tableRowsGroups (table rows) : tableRows table rows = (groups table rows).entries.map groupedRow := rfl

theorem groupText (texts : Texts rows) (mem : e ∈ (groups table rows).entries) :
    (0 : UInt8) ∉ e.1 ∧ ∃ text, e.1 = utf8 text := by
  obtain ⟨id,_⟩ := e
  have found := memIff.mp mem
  rw [groupsFind] at found
  split at found
  · cases found
  · rename_i clear
    refine ⟨clear,?_⟩
    split at found
    · cases found
    · rename_i full
      have key : ∃ more, ∃ e ∈ rows.entries, e.1 = utf8 table ++ 0 :: (id ++ more) ∧ (more = [] ∨ ∃ rest, more = 0 :: rest) := by
        cases packed : rows.find (tablePrefix table ++ id) with
        | some => exact ⟨[],_,memIff.mpr packed,by simp [tablePrefix],.inl rfl⟩
        | none =>
          cases cells : rowsUnder (tablePrefix table ++ (id ++ [0])) rows with
          | nil => simp [Gathered.isEmpty,rowGroup,packed,cells] at full
          | cons e =>
            have inside : e ∈ rowsUnder (tablePrefix table ++ (id ++ [0])) rows := cells ▸ mem_cons_self
            obtain ⟨held,begins⟩ := mem_filter.mp inside
            obtain ⟨rest,whole⟩ := List.isPrefixOf_iff_prefix.mp begins
            exact ⟨0 :: rest,e,held,by rw [← whole]; simp [tablePrefix],.inr ⟨rest,rfl⟩⟩
      obtain ⟨_,e,held,whole,shape⟩ := key
      obtain ⟨text,coded⟩ := (texts e held).text
      obtain ⟨-,tail,-,cut⟩ := utf8Cut (coded.symm.trans whole)
      rcases shape with rfl | ⟨_,rfl⟩
      · exact ⟨tail,by simpa using cut⟩
      · obtain ⟨left,-,front,-⟩ := utf8Cut cut.symm
        exact ⟨left,front⟩

theorem idsClear (texts : Texts rows) {id} (mem : id ∈ ids table rows) : (0 : UInt8) ∉ utf8 id := by
  obtain ⟨_,listed,rfl⟩ := mem_map.mp mem
  rw [tableRowsGroups] at listed
  obtain ⟨e,inside,rfl⟩ := mem_map.mp listed
  obtain ⟨clear,_,coded⟩ := groupText texts inside
  rw [groupedRow,coded,lossyEncoded,← coded]
  exact clear

theorem memIds (texts : Texts rows) {id} :
    id ∈ ids table rows ↔ ∃ group, (groups table rows).find (utf8 id) = some group := by
  unfold ids
  rw [tableRowsGroups,map_map,mem_map]
  constructor
  · rintro ⟨e,inside,rfl⟩
    obtain ⟨-,_,coded⟩ := groupText texts inside
    refine ⟨e.2,memIff.mp ?_⟩
    simp only [Function.comp_apply,groupedRow]
    rw [coded,lossyEncoded,← coded]
    exact inside
  · rintro ⟨group,found⟩
    exact ⟨(utf8 id,group),memIff.mpr found,lossyEncoded id⟩

theorem idsNodup (texts : Texts rows) : (ids table rows).Nodup := by
  unfold ids
  rw [tableRowsGroups,map_map]
  refine List.Nodup.map_on (fun a inside b inside' same => ?_) ((groups table rows).ascending.imp fun less same => ?_)
  · obtain ⟨-,_,coded⟩ := groupText texts inside
    obtain ⟨-,_,coded'⟩ := groupText texts inside'
    simp only [Function.comp_apply,groupedRow] at same
    rw [coded,coded',lossyEncoded,lossyEncoded] at same
    have keys : a.1 = b.1 := by rw [coded,coded',same]
    have first := memIff.mp (show (a.1,a.2) ∈ _ from inside)
    have second := memIff.mp (show (b.1,b.2) ∈ _ from inside')
    rw [keys,second] at first
    exact Prod.ext keys (Option.some.inj first).symm
  · exact lt_irrefl _ (same ▸ less)

end

section
variable {rows : Rows} {table : String}

theorem ofRowPacked (table rowId) : OfRow table (utf8 rowId) (packedRowKey table rowId) :=
  .inl (by simp [packedRowKey,tablePrefix])

theorem insertElsewhere (other : ¬OfRow table (utf8 rowId) key) :
    (rows.insert (packedRowKey table rowId) value).find key = rows.find key := by
  rw [findInsert,if_neg]
  rintro rfl
  exact other (ofRowPacked table rowId)

theorem eraseElsewhere (other : ¬OfRow table (utf8 rowId) key) :
    (rows.erase (packedRowKey table rowId)).find key = rows.find key := by
  rw [findErase,if_neg]
  rintro rfl
  exact other (ofRowPacked table rowId)

theorem rowPrefixSplit (table rowId) : rowPrefix table rowId = tablePrefix table ++ (utf8 rowId ++ [0]) := by
  simp [rowPrefix,tablePrefix]

theorem eraseUnderElsewhere (other : ¬OfRow table (utf8 rowId) key) :
    (eraseUnder (rowPrefix table rowId) rows).find key = rows.find key := by
  have outside : (rowPrefix table rowId).isPrefixOf key = false := by
    rw [Bool.eq_false_iff,rowPrefixSplit]
    exact fun begins => other (.inr (List.isPrefixOf_iff_prefix.mp begins))
  unfold eraseUnder
  rw [findFilter]
  cases rows.find key <;> simp [outside]

theorem rowGroupErased (rowId) : rowGroup table (eraseUnder (rowPrefix table rowId) rows) (utf8 rowId) =
    ⟨(rows.find (packedRowKey table rowId)).bind decodeRow,[]⟩ := by
  have packed : packedRowKey table rowId = tablePrefix table ++ utf8 rowId := by simp [packedRowKey,tablePrefix]
  have outside : (rowPrefix table rowId).isPrefixOf (packedRowKey table rowId) = false := by
    rw [Bool.eq_false_iff,packed,rowPrefixSplit]
    intro begins
    have long := ((List.prefix_append_right_inj _).mp (List.isPrefixOf_iff_prefix.mp begins)).length_le
    simp at long
  have kept : (eraseUnder (rowPrefix table rowId) rows).find (packedRowKey table rowId) = rows.find (packedRowKey table rowId) := by
    unfold eraseUnder
    rw [findFilter]
    cases rows.find (packedRowKey table rowId) <;> simp [outside]
  have none : rowsUnder (tablePrefix table ++ (utf8 rowId ++ [0])) (eraseUnder (rowPrefix table rowId) rows) = [] := by
    rw [← rowPrefixSplit]
    refine filter_eq_nil_iff.mpr fun e mem => ?_
    have gone := (mem_filter.mp mem).2
    rw [Bool.not_eq_true'] at gone
    exact Bool.eq_false_iff.mp gone
  unfold rowGroup
  rw [none,← packed,kept]
  rfl

def stored (table : String) (row : String × List (String × Bytes)) (rows : Rows) : Rows :=
  rows.insert (packedRowKey table row.1) (encodeRow row.2)

def replaced (table : String) (row : String × List (String × Bytes)) (rows : Rows) : Rows :=
  eraseUnder (rowPrefix table row.1) (stored table row rows)

def removed (table rowId : String) (rows : Rows) : Rows :=
  eraseUnder (rowPrefix table rowId) (rows.erase (packedRowKey table rowId))

variable {row : String × List (String × Bytes)}

theorem cellsStored (table row rows) {id}
    (clear : (0 : UInt8) ∉ utf8 row.1) : (rowGroup table (stored table row rows) id).cells = (rowGroup table rows id).cells := by
  have packed : packedRowKey table row.1 = tablePrefix table ++ utf8 row.1 := by simp [packedRowKey,tablePrefix]
  have kept : rowsUnder (tablePrefix table ++ (id ++ [0])) (stored table row rows) =
      rowsUnder (tablePrefix table ++ (id ++ [0])) rows := by
    refine underAgree fun key begins => ?_
    unfold stored
    rw [findInsert,if_neg]
    rintro rfl
    rw [packed,List.prefix_append_right_inj] at begins
    exact clear (begins.subset (by simp))
  unfold rowGroup
  rw [kept]

theorem storedGroups (fits : Packable row.2) (clear : (0 : UInt8) ∉ utf8 row.1) : groups table (stored table row rows) =
    (groups table rows).insert (utf8 row.1) ⟨some row.2,(rowGroup table rows (utf8 row.1)).cells⟩ := by
  have packed : packedRowKey table row.1 = tablePrefix table ++ utf8 row.1 := by simp [packedRowKey,tablePrefix]
  refine groupsPut clear (fun key other => insertElsewhere other) ?_ rfl
  have cells := @cellsStored table row rows (utf8 row.1) clear
  unfold rowGroup at cells ⊢
  simp only at cells
  rw [cells]
  unfold stored
  rw [← packed,findInsert,if_pos rfl,Option.bind_some,decodeEncodedRow fits]

theorem storedFresh (texts : Texts rows) (fits : Packable row.2) (clear : (0 : UInt8) ∉ utf8 row.1)
    (fresh : row.1 ∉ ids table rows) : (tableRows table (stored table row rows)).Perm (row :: tableRows table rows) := by
  have absent : (groups table rows).find (utf8 row.1) = none := by
    cases found : (groups table rows).find (utf8 row.1) with
    | none => rfl
    | some group => exact absurd ((memIds texts).mpr ⟨group,found⟩) fresh
  have before : (rowGroup table rows (utf8 row.1)).cells = [] := by
    rw [groupsFind,if_neg clear] at absent
    split at absent
    · rename_i empty
      simp only [Gathered.isEmpty,Bool.and_eq_true,List.isEmpty_iff] at empty
      exact empty.2
    · cases absent
  rw [tableRowsGroups,tableRowsGroups,storedGroups fits clear,before]
  have perm := (insertInPerm absent ⟨some row.2,[]⟩).map groupedRow
  have whole : groupedRow (utf8 row.1,⟨some row.2,[]⟩) = row := by simp [groupedRow,Gathered.row]
  rw [map_cons,whole] at perm
  exact perm

theorem replacedGroups (fits : Packable row.2) (clear : (0 : UInt8) ∉ utf8 row.1) :
    groups table (replaced table row rows) = (groups table rows).insert (utf8 row.1) ⟨some row.2,[]⟩ := by
  refine groupsPut clear (fun key other => ?_) ?_ rfl
  · exact (eraseUnderElsewhere other).trans (insertElsewhere other)
  · unfold replaced
    rw [rowGroupErased]
    unfold stored
    rw [findInsert,if_pos rfl,Option.bind_some,decodeEncodedRow fits]

theorem removedGroups (clear : (0 : UInt8) ∉ utf8 rowId) :
    groups table (removed table rowId rows) = (groups table rows).erase (utf8 rowId) := by
  refine groupsGone clear (fun key other => ?_) ?_
  · exact (eraseUnderElsewhere other).trans (eraseElsewhere other)
  · unfold removed
    rw [rowGroupErased,findErase,if_pos rfl]
    rfl

theorem groupedId (texts : Texts rows) {e} (mem : e ∈ (groups table rows).entries) {rowId} :
    e.1 = utf8 rowId ↔ (groupedRow e).1 = rowId := by
  obtain ⟨-,_,coded⟩ := groupText texts mem
  rw [groupedRow,coded,lossyEncoded]
  exact ⟨utf8Injective,fun same => congrArg utf8 same⟩

theorem replacedRow (texts : Texts rows) (fits : Packable row.2) (listed : row.1 ∈ ids table rows) :
    tableRows table (replaced table row rows) = (tableRows table rows).map fun r => if r.1 = row.1 then row else r := by
  obtain ⟨_,found⟩ := (memIds texts).mp listed
  rw [tableRowsGroups,tableRowsGroups,replacedGroups fits (idsClear texts listed)]
  have present := insertInPresent (groups table rows).ascending found (⟨some row.2,[]⟩ : Gathered)
  simp only [Table.insert,present,map_map]
  refine map_congr_left fun e mem => ?_
  have same := @groupedId rows table texts e mem row.1
  simp only [Function.comp_apply]
  split
  · rename_i here
    rw [if_pos (same.mp here),groupedRow,lossyEncoded]
    rfl
  · rename_i other
    rw [if_neg fun here => other (same.mpr here)]

theorem removedRow (texts : Texts rows) {rowId} (clear : (0 : UInt8) ∉ utf8 rowId) :
    tableRows table (removed table rowId rows) = (tableRows table rows).filter fun r => r.1 ≠ rowId := by
  rw [tableRowsGroups,tableRowsGroups,removedGroups clear]
  simp only [erase,eraseIn,filter_map]
  refine congrArg _ (filter_congr fun e mem => ?_)
  have same := @groupedId rows table texts e mem rowId
  simp [same]

end
end NoeDB.DmlContent
