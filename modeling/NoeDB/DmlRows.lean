import NoeDB.DmlRules

/-! What `INSERT`, `UPDATE` and `DELETE` make of the rows outside of transactions, as
functions of the rows before; the scripts act as these functions say, whatever the catalog
answers. -/
namespace NoeDB.DmlRows
open ByteString Text OrderedTable Interaction Platform List Table
open SqlAst SqlValue RowPack Schema TableRegion Dml DmlRules

section
variable {α β γ : Type}

abbrev Outcome (α : Type) := Except EngineFault α × Rows

def andThen (first : Outcome β) (next : β → Rows → Outcome α) : Outcome α :=
  match first with
  | (.ok b,rows) => next b rows
  | (.error e,rows) => (.error e,rows)

def runEach (each : γ → Rows → Outcome Unit) : List γ → Rows → Outcome Unit
  | [],rows => (.ok (),rows)
  | c :: rest,rows => andThen (each c rows) fun _ mid => runEach each rest mid

def Acts (script : StoreScript α) (rows : Rows) (outcome : Outcome α) : Prop :=
  Leads rowRules (fun a after => outcome = (.ok a,after)) (fun e after => outcome = (.error e,after)) script rows

/- The script neither fails nor changes the rows, whatever it returns. -/
def Idle (script : StoreScript α) : Prop :=
  ∀ rows, Leads rowRules (fun _ after => after = rows) (fun _ _ => False) script rows

variable {rows : Rows}

theorem actsPure (a : α) : Acts (pure a) rows (.ok a,rows) := rfl

theorem actsExcept (result : Except EngineFault α) : Acts (.ofExcept result) rows (result,rows) := by
  cases result <;> exact rfl

theorem actsBind {next} {after : β → Rows → Outcome α}
    (acts : Acts script rows first) (then' : ∀ b mid, first = (.ok b,mid) → Acts (next b) mid (after b mid)) :
    Acts (script >>= next) rows (andThen first after) := by
  refine leadsBind.mpr (leadsMono acts (fun b mid done => ?_) fun e mid failed => ?_)
  · rw [done]
    exact then' b mid done
  · rw [failed]
    rfl

theorem actsStep {next} {b : β} {outcome : Outcome α}
    (acts : Acts script rows (.ok b,mid)) (then' : Acts (next b) mid outcome) : Acts (script >>= next) rows outcome := by
  refine leadsBind.mpr (leadsMono acts (fun c after done => ?_) fun e after failed => nomatch failed)
  cases done
  exact then'

theorem actsFailed {next : β → StoreScript α}
    (acts : Acts script rows (.error e,mid)) : Acts (script >>= next) rows (.error e,mid) := by
  refine leadsBind.mpr (leadsMono acts (fun c after done => nomatch done) fun e' after failed => ?_)
  cases failed
  rfl

theorem actsCheck {next : β → StoreScript α} {result : Except EngineFault β}
    {after} (acts : Acts script rows (result,rows)) (then' : ∀ b, result = .ok b → Acts (next b) rows (after b,rows)) :
    Acts (script >>= next) rows (result >>= after,rows) := by
  cases result with
  | error => exact actsFailed acts
  | ok b => exact actsStep acts (then' b rfl)

theorem actsIdle {next : β → StoreScript α} (idle : Idle script)
    (then' : ∀ b, Acts (next b) rows outcome) : Acts (script >>= next) rows outcome := by
  refine leadsBind.mpr (leadsMono (idle rows) (fun b mid same => ?_) fun _ _ never => never.elim)
  rw [same]
  exact then' b

theorem idleActs (idle : Idle script) : Acts script rows (.ok (),rows) :=
  leadsMono (idle rows) (fun _ _ same => by rw [same]) fun _ _ never => never.elim

def Texts (rows : Rows) : Prop := ∀ e ∈ rows.entries, TableKey e.1

theorem textsInsert (texts : Texts rows) (own : TableKey key) (value) : Texts (rows.insert key value) := by
  intro e mem
  rcases memInsertIn mem with rfl | old
  · exact own
  · exact texts e old

theorem textsFilter (texts : Texts rows) (keep) : Texts (rows.filter keep) :=
  fun e mem => texts e (mem_of_mem_filter mem)

theorem textsErase (texts : Texts rows) (key) : Texts (rows.erase key) := fun e mem => texts e (mem_of_mem_filter mem)

theorem actsEach {items : List γ} (texts : Texts rows)
    (acts : ∀ c ∈ items, ∀ rows, Texts rows → Acts (f c) rows (each c rows))
    (keeps : ∀ c ∈ items, ∀ rows, Texts rows → Texts (each c rows).2) :
    Acts (Script.forEach f items) rows (runEach each items rows) := by
  induction items generalizing rows with
  | nil => exact rfl
  | cons _ _ ih =>
    obtain ⟨here,later⟩ := forall_mem_cons.mp acts
    obtain ⟨first,others⟩ := forall_mem_cons.mp keeps
    refine actsBind (here rows texts) fun _ mid done => ih ?_ later others
    have after := first rows texts
    rwa [done] at after

theorem idlePure (a) : Idle (pure a : StoreScript α) := fun _ => rfl

theorem idleBind {next : β → StoreScript α} (first : Idle script) (then' : ∀ b, Idle (next b)) :
    Idle (script >>= next) := by
  intro rows
  refine leadsBind.mpr (leadsMono (first rows) (fun b mid same => ?_) fun _ _ never => never)
  rw [same]
  exact then' b rows

theorem idleEach {f : γ → StoreScript Unit} {items : List γ} (each : ∀ c ∈ items, Idle (f c)) :
    Idle (Script.forEach f items) := by
  induction items with
  | nil => exact fun _ => rfl
  | cons _ _ ih =>
    obtain ⟨here,later⟩ := forall_mem_cons.mp each
    exact idleBind here fun _ => ih later

end

section

theorem entryReserved (table column value rowId) : Reserved (entryKey table column value rowId) := .inl rfl

theorem entryNamed (table column value rowId) : entryKey table column value rowId ≠ [] := by
  simp [entryKey,entryPrefix,entriesPrefix]

theorem reservedSame {after} (reserved : Reserved key) (writes : Writes rows key op after) : after = rows := by
  rcases writes with ⟨-,same⟩ | ⟨own,-⟩
  · exact same
  · exact absurd reserved own.outer

theorem idleIndexPut (table column) (value : Bytes) (rowId) : Idle (indexEntryPut table column value rowId) :=
  fun _ => ⟨.inl ⟨entryNamed _ _ _ _,entryReserved _ _ _ _⟩,fun _ _ => reservedSame (entryReserved _ _ _ _)⟩

theorem idleIndexDelete (table column) (value : Bytes) (rowId) : Idle (indexEntryDelete table column value rowId) :=
  fun _ => ⟨.inl ⟨entryNamed _ _ _ _,entryReserved _ _ _ _⟩,fun _ _ => reservedSame (entryReserved _ _ _ _)⟩

theorem idleIndexed (table) : Idle (indexedColumns table) := fun _ => ⟨⟨rfl,.inl (.inl rfl)⟩,fun _ _ read => read.1⟩

theorem idleCount (inTxn table delta) : Idle (countRows inTxn table delta) := by
  unfold countRows
  split
  · exact idlePure ()
  · exact fun _ => ⟨.inl (.inr rfl),fun _ _ read => ⟨.inr rfl,fun _ _ same => same.trans read.1⟩⟩

theorem idleMove (table rowId : String) (row c) : Idle (moveIndexEntry table rowId row c) := by
  unfold moveIndexEntry
  split
  · split
    · exact idlePure ()
    · exact idleBind (idleIndexDelete _ _ _ _) fun _ => idleIndexPut _ _ _ _
  · exact idleIndexPut _ _ _ _

theorem idleDeleteEntry (table row col) : Idle (deleteIndexEntry table row col) := by
  unfold deleteIndexEntry
  split
  · exact idleIndexDelete _ _ _ _
  · exact idlePure ()

end

section
variable {table : String}

theorem lawfulBytes : LawfulBEq UInt8 := inferInstance

instance decidableZero (bytes : Bytes) : Decidable ((0 : UInt8) ∈ bytes) :=
  @List.instDecidableMemOfLawfulBEq UInt8 _ lawfulBytes 0 bytes

@[mk_iff]
structure Named (table : String) : Prop where
  outer : ¬Reserved (tablePrefix table)
  single : (0 : UInt8) ∉ utf8 table

instance (table) : Decidable (Named table) := decidable_of_iff' _ (named_iff table)

theorem utf8Nul (left right) : utf8 (left ++ "\x00" ++ right) = utf8 left ++ 0 :: utf8 right := by
  have nul : utf8 "\x00" = [0] := by decide
  simp [nul]

theorem tableKeyOf (named : Named table) (rest) : TableKey (utf8 table ++ 0 :: utf8 rest) where
  named := by simp
  text := ⟨table ++ "\x00" ++ rest,(utf8Nul table rest).symm⟩
  outer := by
    have split : utf8 table ++ 0 :: utf8 rest = tablePrefix table ++ utf8 rest := by simp [tablePrefix]
    rw [split,reservedAppend (by simp [tablePrefix])]
    exact named.outer

theorem packedTableKey (named : Named table) (rowId) : TableKey (packedRowKey table rowId) := tableKeyOf named rowId

theorem cellTableKey (named : Named table) (rowId column) : TableKey (rowKey table rowId column) := by
  have own := tableKeyOf named (rowId ++ "\x00" ++ column)
  rwa [utf8Nul] at own

theorem tableSeparated (named : Named table) : Separated (tablePrefix table) := ⟨tableKeyOf named "",utf8 table,rfl⟩

theorem rowSeparated (named : Named table) (rowId) : Separated (rowPrefix table rowId) := by
  have own := tableKeyOf named (rowId ++ "\x00" ++ "")
  rw [utf8Nul] at own
  exact ⟨own,utf8 table ++ 0 :: utf8 rowId,by simp [rowPrefix]⟩

end

section
variable {rows : Rows} {table : String}

def tableRows (table : String) (rows : Rows) : List (String × List (String × Bytes)) :=
  groupRows (tablePrefix table) (rowsUnder (tablePrefix table) rows)

theorem lookUpActs (own : TableKey key) : Acts (lookUp key) rows (.ok (rows.find key),rows) := by
  refine ⟨.inr own,fun answer after read => ?_⟩
  rw [read.1,read.2 own]
  exact rfl

theorem treeGetActs (own : TableKey key) : Acts (treeGet key) rows (.ok (rows.find key),rows) := by
  refine ⟨.inr own,fun answer after read => ?_⟩
  rw [read.1,read.2 own]
  exact rfl

theorem scanRangeActs (separated : Separated start) :
    Acts (scanRange start (prefixEnd start)) rows (.ok (rowsUnder start rows),rows) := by
  refine ⟨⟨rfl,.inr separated⟩,fun answer after read => ?_⟩
  rw [read.1,read.2 separated]
  exact rfl

theorem treeRangeActs (separated : Separated start) :
    Acts (treeRange start (prefixEnd start)) rows (.ok (rowsUnder start rows),rows) := by
  refine ⟨⟨rfl,.inr separated⟩,fun answer after read => ?_⟩
  rw [read.1,read.2 separated]
  exact rfl

theorem scanTableActs (named : Named table) : Acts (scanTable table) rows (.ok (tableRows table rows),rows) :=
  actsStep (scanRangeActs (tableSeparated named)) (actsPure _)

theorem putActs (own : TableKey key) (fits : value.length < 2^32) :
    Acts (putKey key value) rows (.ok (),rows.insert key value) := by
  refine ⟨.inr ⟨own,fits⟩,fun _ after writes => ?_⟩
  rcases writes with ⟨reserved,-⟩ | ⟨-,rfl⟩
  · exact absurd reserved own.outer
  · rfl

theorem deleteActs (own : TableKey key) : Acts (deleteKey key) rows (.ok (),rows.erase key) := by
  refine ⟨.inr own,fun _ after writes => ?_⟩
  rcases writes with ⟨reserved,-⟩ | ⟨-,rfl⟩
  · exact absurd reserved own.outer
  · rfl

end

section
variable {rows : Rows} {table : String}

def eachOk {γ : Type} (check : γ → Except EngineFault Unit) : List γ → Except EngineFault Unit
  | [] => .ok ()
  | c :: rest => do
      check c
      eachOk check rest

theorem checksAct {γ : Type} {f : γ → StoreScript Unit} {check : γ → Except EngineFault Unit} {items : List γ}
    (acts : ∀ c ∈ items, Acts (f c) rows (check c,rows)) : Acts (Script.forEach f items) rows (eachOk check items,rows) := by
  induction items with
  | nil => exact rfl
  | cons _ _ ih =>
    obtain ⟨here,later⟩ := forall_mem_cons.mp acts
    exact actsCheck here fun _ _ => ih later

def keyTaken (rows : Rows) (table pk rowId : String) : Bool :=
  (rows.find (packedRowKey table rowId)).isSome || (rows.find (rowKey table rowId pk)).isSome

def checkedKey (rows : Rows) (table : String) (colNames : List String) (values : List Value) (pk : String) :
    Except EngineFault Unit := do
  let pkRow ← keyText table colNames values pk
  refuseTaken pk pkRow (keyTaken rows table pk pkRow)

theorem keyExistsActs (named : Named table) (pk rowId) :
    Acts (keyExists table pk rowId) rows (.ok (keyTaken rows table pk rowId),rows) := by
  refine actsStep (lookUpActs (packedTableKey named rowId)) ?_
  unfold keyTaken
  cases rows.find (packedRowKey table rowId) with
  | some => exact rfl
  | none => exact actsStep (lookUpActs (cellTableKey named rowId pk)) (actsPure _)

theorem checkKeyActs (named : Named table) (colNames values pk) :
    Acts (checkKeyColumn table colNames values pk) rows (checkedKey rows table colNames values pk,rows) := by
  exact actsCheck (actsExcept _) fun pkRow _ => actsStep (keyExistsActs named pk pkRow) (actsExcept _)

def checkedUnique (rows : Rows) (table : String) (colNames : List String) (values : List Value)
    (tableSchema : TableSchema) : Except EngineFault Unit :=
  eachOk (checkUniqueColumn colNames values (tableRows table rows)) (uniqueColumns tableSchema)

theorem enforceUniqueActs (named : Named table) (colNames values tableSchema) :
    Acts (enforceUniqueColumns table colNames values tableSchema) rows
      (checkedUnique rows table colNames values tableSchema,rows) := by
  unfold enforceUniqueColumns checkedUnique
  split
  · rename_i none
    rw [none]
    exact rfl
  · exact actsStep (scanTableActs named) (checksAct fun _ _ => actsExcept _)

def enforced (schema : SchemaCatalog) (table : String) (colNames : List String) (values : List Value) (rows : Rows) :
    Except EngineFault Unit :=
  match schema.tables.find table with
  | none => .ok ()
  | some tableSchema => do
      eachOk (checkedKey rows table colNames values) tableSchema.primaryKey
      checkedUnique rows table colNames values tableSchema

theorem enforceActs (named : Named table) (schema colNames values) :
    Acts (enforcePrimaryKey schema table colNames values) rows (enforced schema table colNames values rows,rows) := by
  unfold enforcePrimaryKey enforced
  cases schema.tables.find table with
  | none => exact rfl
  | some tableSchema =>
    have keys := checksAct fun pk (_ : pk ∈ tableSchema.primaryKey) => @checkKeyActs rows table named colNames values pk
    exact actsCheck keys fun _ _ => enforceUniqueActs named colNames values tableSchema

end

def eraseUnder (start : Bytes) (rows : Rows) : Rows := rows.filter fun e => !start.isPrefixOf e.1

section
variable [Runtime] (schema : SchemaCatalog)

def acceptRow (table : String) (colNames : List String) (rows : Rows) (rowExprs : List Expr) :
    Except EngineFault (String × List (String × Bytes)) := do
  let row ← rowValues colNames rowExprs
  enforced schema table colNames row.2 rows
  let pending ← encodeColumns schema table (colNames.zip row.2)
  .ok (row.1,pending)

def insertedRow (table : String) (colNames : List String) (rowExprs : List Expr) (rows : Rows) : Outcome Unit :=
  match acceptRow schema table colNames rows rowExprs with
  | .error e => (.error e,rows)
  | .ok row => (.ok (),rows.insert (packedRowKey table row.1) (encodeRow row.2))

def insertRows (ins : InsertStmt) (rows : Rows) : Outcome Unit :=
  match insertColumns schema ins with
  | .error e => (.error e,rows)
  | .ok colNames => runEach (insertedRow schema ins.table colNames) ins.values rows

def updatedRow (upd : UpdateStmt) (row : String × List (String × Bytes)) (rows : Rows) : Outcome Unit :=
  match encodeAssignments schema upd.table row.2 upd.assignments with
  | .error e => (.error e,rows)
  | .ok pending => (.ok (),eraseUnder (rowPrefix upd.table row.1)
      (rows.insert (packedRowKey upd.table row.1) (encodeRow (pending.foldl setColumn row.2))))

def updateRows (upd : UpdateStmt) (rows : Rows) : Outcome Nat :=
  match evaluated (matchingRows upd.whereClause (tableRows upd.table rows)) with
  | .error e => (.error e,rows)
  | .ok matched => andThen (runEach (updatedRow schema upd) matched rows) fun _ after => (.ok matched.length,after)

def deletedRow (table : String) (row : String × List (String × Bytes)) (rows : Rows) : Outcome Unit :=
  (.ok (),eraseUnder (rowPrefix table row.1) (rows.erase (packedRowKey table row.1)))

def deleteRows (del : DeleteStmt) (rows : Rows) : Outcome Nat :=
  match evaluated (matchingRows del.whereClause (tableRows del.table rows)) with
  | .error e => (.error e,rows)
  | .ok matched => andThen (runEach (deletedRow del.table) matched rows) fun _ after => (.ok matched.length,after)

def Fits (columns : List (String × Bytes)) : Prop := Packable columns ∧ (encodeRow columns).length < 2^32

instance (columns) : Decidable (Fits columns) := inferInstanceAs (Decidable (_ ∧ _))

def InsertFits (table : String) (colNames : List String) (rowExprs : List Expr) : Prop :=
  ∀ row pending, rowValues colNames rowExprs = .ok row →
    encodeColumns schema table (colNames.zip row.2) = .ok pending → Fits pending

def UpdateFits (upd : UpdateStmt) (row : String × List (String × Bytes)) : Prop :=
  ∀ pending, encodeAssignments schema upd.table row.2 upd.assignments = .ok pending → Fits (pending.foldl setColumn row.2)

end

section
variable {rows : Rows}

theorem deleteAllActs {keys} (own : ∀ key ∈ keys, TableKey key) :
    Acts (Script.forEach deleteKey keys) rows (.ok (),keys.foldl erase rows) := by
  induction keys generalizing rows with
  | nil => exact rfl
  | cons _ _ ih =>
    obtain ⟨here,later⟩ := forall_mem_cons.mp own
    exact actsStep (deleteActs here) (ih later)

theorem eraseAllEntries (keys : List Bytes) (rows : Rows) :
    (keys.foldl erase rows).entries = rows.entries.filter fun e => e.1 ∉ keys := by
  induction keys generalizing rows with
  | nil => simp
  | cons _ _ ih =>
    rw [foldl_cons,ih]
    simp only [erase,eraseIn,filter_filter,mem_cons,not_or,ne_eq]
    simp [Bool.and_comm]

theorem eraseFound (start : Bytes) (rows : Rows) :
    (withPrefix start (rowsUnder start rows)).foldl erase rows = eraseUnder start rows := by
  refine ext ?_
  rw [eraseAllEntries]
  refine filter_congr fun e mem => ?_
  have listed : e.1 ∈ withPrefix start (rowsUnder start rows) ↔ start.isPrefixOf e.1 = true := by
    simp only [withPrefix,rowsUnder,mem_map,mem_filter]
    constructor
    · rintro ⟨q,⟨-,begins⟩,same⟩
      exact same ▸ begins
    · intro begins
      exact ⟨e,⟨⟨mem,begins⟩,begins⟩,rfl⟩
  cases begins : start.isPrefixOf e.1 <;> simp [listed,begins]

theorem deleteCellsActs (texts : Texts rows) :
    Acts (deleteCells start (rowsUnder start rows)) rows (.ok (),eraseUnder start rows) := by
  rw [← eraseFound]
  refine deleteAllActs fun key mem => ?_
  obtain ⟨e,inside,rfl⟩ := mem_map.mp mem
  exact texts e (mem_of_mem_filter (mem_of_mem_filter inside))

theorem tombstonesAct (named : Named table) (rowId) (texts : Texts rows) :
    Acts (tombstoneRowCells table rowId) rows (.ok (),eraseUnder (rowPrefix table rowId) rows) :=
  actsStep (scanRangeActs (rowSeparated named rowId)) (deleteCellsActs texts)

theorem deleteRowActs (named : Named table) (texts : Texts rows) (rowId : String) :
    Acts (deleteRow table rowId) rows (.ok (),eraseUnder (rowPrefix table rowId) (rows.erase (packedRowKey table rowId))) := by
  refine actsStep (treeGetActs (packedTableKey named rowId)) ?_
  have gone : Acts (deletePresent (packedRowKey table rowId) (rows.find (packedRowKey table rowId)))
      rows (.ok (),rows.erase (packedRowKey table rowId)) := by
    cases found : rows.find (packedRowKey table rowId) with
    | some => exact deleteActs (packedTableKey named rowId)
    | none =>
      rw [eraseAbsent found]
      exact rfl
  exact actsStep gone (actsStep (treeRangeActs (rowSeparated named rowId)) (deleteCellsActs (textsErase texts _)))

end

def chosen [Runtime] (whereClause : Option Expr) (row : String × List (String × Bytes)) : Bool :=
  match wants whereClause (asRow row.2) with
  | .ok wanted => wanted
  | .error _ => false

theorem matchingChosen [Runtime] {all}
    (done : evaluated (matchingRows whereClause all) = .ok matched) : matched = all.filter (chosen whereClause) := by
  have plain : matchingRows whereClause all = .ok matched := by
    cases outcome : matchingRows whereClause all with
    | error =>
      rw [outcome] at done
      cases done
    | ok =>
      rw [outcome] at done
      cases done
      rfl
  clear done
  induction all generalizing matched with
  | nil =>
    cases plain
    rfl
  | cons row _ ih =>
    simp only [matchingRows,bind,Except.bind] at plain
    split at plain
    · cases plain
    · rename_i wanted answer
      split at plain
      · cases plain
      · rename_i more later
        cases plain
        have here : chosen whereClause row = wanted := by simp [chosen,answer]
        rw [filter_cons,here,ih later]

theorem matchingSubset [Runtime] {all}
    (done : evaluated (matchingRows whereClause all) = .ok matched) : ∀ row ∈ matched, row ∈ all := by
  rw [matchingChosen done]
  exact fun row mem => mem_of_mem_filter mem

section
variable [Runtime] {schema : SchemaCatalog} {rows : Rows} {table : String}

theorem insertRowActs (named : Named table) {colNames indexed : List String} {rowExprs : List Expr}
    (fits : InsertFits schema table colNames rowExprs) :
    Acts (insertRow schema false table colNames indexed rowExprs) rows
      (insertedRow schema table colNames rowExprs rows) := by
  unfold insertRow insertedRow acceptRow
  cases valued : rowValues colNames rowExprs with
  | error => exact rfl
  | ok row =>
    refine actsStep (actsPure row) ?_
    have checks := @enforceActs rows table named schema colNames row.2
    simp only [Bind.bind,Except.bind]
    cases passed : enforced schema table colNames row.2 rows with
    | error =>
      rw [passed] at checks
      exact actsFailed checks
    | ok =>
      rw [passed] at checks
      refine actsStep checks ?_
      cases encoded : encodeColumns schema table (colNames.zip row.2) with
      | error => exact rfl
      | ok pending =>
        refine actsStep (actsPure pending) ?_
        refine actsStep (putActs (packedTableKey named row.1) (fits row pending valued encoded).2) ?_
        refine idleActs (idleBind (idleEach fun c _ => idleIndexPut _ _ _ _) fun _ => idleCount _ _ _)

theorem insertedTexts (named : Named table) (texts : Texts rows) :
    Texts (insertedRow schema table colNames rowExprs rows).2 := by
  unfold insertedRow
  split
  · exact texts
  · exact textsInsert texts (packedTableKey named _) _

theorem executeInsertActs (named : Named ins.table) (texts : Texts rows)
    (fits : ∀ colNames, insertColumns schema ins = .ok colNames → ∀ rowExprs ∈ ins.values,
      InsertFits schema ins.table colNames rowExprs) :
    Acts (executeInsert schema false ins) rows (insertRows schema ins rows) := by
  unfold executeInsert insertRows
  cases named' : insertColumns schema ins with
  | error => exact rfl
  | ok colNames =>
    refine actsStep (actsPure colNames) (actsIdle (idleIndexed _) fun indexed => ?_)
    exact actsEach texts (fun rowExprs mem _ _ => insertRowActs named (fits colNames named' rowExprs mem))
      fun _ _ _ texts => insertedTexts named texts

theorem matchedActs (named : Named table) (whereClause : Option Expr) : Acts (matchedRows table whereClause) rows
    (evaluated (matchingRows whereClause (tableRows table rows)),rows) :=
  actsStep (scanTableActs named) (actsExcept _)

theorem updateRowActs (named : Named upd.table) (texts : Texts rows) {indexed : List String}
    {row : String × List (String × Bytes)} (fits : UpdateFits schema upd row) :
    Acts (updateRow schema upd indexed row) rows (updatedRow schema upd row rows) := by
  unfold updateRow updatedRow
  cases encoded : encodeAssignments schema upd.table row.2 upd.assignments with
  | error => exact rfl
  | ok pending =>
    refine actsStep (actsPure pending) ?_
    refine actsStep (putActs (packedTableKey named row.1) (fits pending encoded).2) ?_
    have cells := tombstonesAct named row.1 (textsInsert texts (packedTableKey named row.1)
      (encodeRow (pending.foldl setColumn row.2)))
    exact actsStep cells (idleActs (idleEach fun c _ => idleMove _ _ _ _))

theorem updatedTexts (named : Named upd.table) (texts : Texts rows) : Texts (updatedRow schema upd row rows).2 := by
  unfold updatedRow
  split
  · exact texts
  · exact textsFilter (textsInsert texts (packedTableKey named _) _) _

theorem executeUpdateActs (named : Named upd.table) (texts : Texts rows)
    (fits : ∀ row ∈ tableRows upd.table rows, UpdateFits schema upd row) :
    Acts (executeUpdate schema upd) rows (updateRows schema upd rows) := by
  unfold executeUpdate updateRows
  refine actsIdle (idleIndexed _) fun indexed => ?_
  have found := @matchedActs _ rows _ named upd.whereClause
  cases matching : evaluated (matchingRows upd.whereClause (tableRows upd.table rows)) with
  | error =>
    rw [matching] at found
    exact actsFailed found
  | ok =>
    rw [matching] at found
    have inside := matchingSubset matching
    refine actsStep found (actsBind (actsEach texts
      (fun row mem _ texts => updateRowActs named texts (fits row (inside row mem)))
      fun _ _ _ texts => updatedTexts named texts) fun _ mid _ => actsPure _)

theorem executeDeleteActs (named : Named del.table) (texts : Texts rows) :
    Acts (executeDelete schema false del) rows (deleteRows del rows) := by
  unfold executeDelete deleteRows
  refine actsIdle (idleIndexed _) fun indexed => ?_
  have found := @matchedActs _ rows _ named del.whereClause
  cases matching : evaluated (matchingRows del.whereClause (tableRows del.table rows)) with
  | error =>
    rw [matching] at found
    exact actsFailed found
  | ok =>
    rw [matching] at found
    refine actsStep found (actsBind (actsEach texts (fun row _ _ texts =>
      actsStep (deleteRowActs named texts row.1) (idleActs (idleEach fun _ _ => idleDeleteEntry _ _ _)))
      fun _ _ _ texts => textsFilter (textsErase texts _) _) fun _ mid _ => ?_)
    exact actsIdle (idleCount _ _ _) fun _ => actsPure _

end
end NoeDB.DmlRows
