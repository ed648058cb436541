import NoeDB.DmlRefinement

/-! Inserts and updates that fail. A row is checked before it is written, so a statement that
fails at its first row has changed nothing; one that fails later keeps what the rows
before have written. -/
namespace NoeDB.DmlFailures
open ByteString Text OrderedTable StorageTypes Execution Lsm LsmTree MvccTable Transactions TxnManager TxnStorage Interaction Platform List TxnOverlayStore
open SqlAst SqlValue RowPack Schema TableRegion Dml DmlRules DmlRows DmlContent DmlRelations
open EngineRuns DmlRefinement

def unread (txn : Transaction) : Transaction := {txn with readSet := ∅}
def unreadEntry (e : TxnId × Transaction) : TxnId × Transaction := (e.1,unread e.2)

structure SameSight (engine next : Engine) : Prop where
  tree : next.tree = engine.tree
  clock : next.manager.oracle = engine.manager.oracle
  mvcc : next.manager.mvcc = engine.manager.mvcc
  sessions : next.manager.sessions = engine.manager.sessions
  active : next.manager.active.entries.map unreadEntry = engine.manager.active.entries.map unreadEntry

section
variable {engine next : Engine} {m : TxnManager} {tree : LsmTree} {session : UInt64}

theorem sightRefl (engine) : SameSight engine engine := ⟨rfl,rfl,rfl,rfl,rfl⟩

theorem sightTrans (first : SameSight engine next) (second : SameSight next last) : SameSight engine last where
  tree := second.tree.trans first.tree
  clock := second.clock.trans first.clock
  mvcc := second.mvcc.trans first.mvcc
  sessions := second.sessions.trans first.sessions
  active := second.active.trans first.active

theorem findUnread (entries id) : findIn id (entries.map unreadEntry) = (findIn id entries).map unread := by
  induction entries with
  | nil => rfl
  | cons _ _ ih =>
    simp only [map_cons,unreadEntry,findIn]
    split
    · rfl
    · exact ih

theorem SameSight.find (same : SameSight engine next) (id) :
    (next.manager.active.find id).map unread = (engine.manager.active.find id).map unread := by
  have both := congrArg (findIn id) same.active
  rwa [findUnread,findUnread] at both

theorem SameSight.txns (same : SameSight engine next) (id) :
    (next.manager.active.find id = none ∧ engine.manager.active.find id = none) ∨
      ∃ txn txn', next.manager.active.find id = some txn ∧ engine.manager.active.find id = some txn' ∧
        txn.startTs = txn'.startTs ∧ txn.writeSet = txn'.writeSet ∧ txn.state = txn'.state := by
  have found := same.find id
  cases here : next.manager.active.find id with
  | none =>
    cases there : engine.manager.active.find id with
    | none => exact .inl ⟨rfl,rfl⟩
    | some => simp [here,there] at found
  | some txn =>
    cases there : engine.manager.active.find id with
    | none => simp [here,there] at found
    | some txn' =>
      rw [here,there] at found
      have equal : unread txn = unread txn' := Option.some.inj found
      simp only [unread,Transaction.mk.injEq] at equal
      exact .inr ⟨txn,txn',rfl,rfl,equal.2.1,equal.2.2.2.1,equal.2.2.2.2⟩

theorem withTxnSight {α : Type} {f : Transaction → α × Transaction} (keeps : ∀ txn, unread (f txn).2 = unread txn) :
    SameSight ⟨m,tree⟩ ⟨(m.withTxn session f).2,tree⟩ := by
  unfold TxnManager.withTxn
  split
  · exact sightRefl _
  · rename_i id own
    split
    · exact sightRefl _
    · rename_i txn found
      split
      · refine ⟨rfl,rfl,rfl,rfl,?_⟩
        have entries : (m.active.insert id (f txn).2).entries =
            m.active.entries.map fun e => if e.1 = id then (id,(f txn).2) else e :=
          insertInPresent m.active.ascending found _
        show (m.active.insert id (f txn).2).entries.map unreadEntry = _
        rw [entries,map_map]
        refine map_congr_left fun e mem => ?_
        simp only [Function.comp_apply]
        split
        · rename_i same
          have here : e.2 = txn := by
            have own' := Table.memIff.mp mem
            rw [same,found] at own'
            exact (Option.some.inj own').symm
          simp [unreadEntry,keeps,same,here]
        · rfl
      · exact sightRefl _

theorem lookUpSight (key) : SameSight ⟨m,tree⟩ ⟨(m.lookUp session key).2,tree⟩ := by
  unfold TxnManager.lookUp
  split
  · exact sightRefl _
  · have own := @withTxnSight m tree session _ (fun txn => (txn.readOwn key,txn)) fun _ => rfl
    cases ran : m.withTxn session fun txn => (txn.readOwn key,txn) with
    | mk result =>
      rw [ran] at own
      cases result with
      | error => exact own
      | ok found =>
        cases found with
        | some => exact own
        | none =>
          dsimp only
          split <;> exact own

theorem getSight (key : Bytes) : SameSight ⟨m,tree⟩ ⟨(m.get session key).2,tree⟩ := by
  unfold TxnManager.get
  split
  · exact sightRefl _
  · rename_i id own
    have noted := @withTxnSight m tree session _ (fun txn => ((),txn.recordRead key)) fun _ => rfl
    cases ran : m.withTxn session fun txn => ((),txn.recordRead key) with
    | mk result after =>
      rw [ran] at noted
      cases result with
      | error => exact noted
      | ok =>
        have tracked : SameSight ⟨after,tree⟩ ⟨after.trackRwDependencies id key,tree⟩ := ⟨rfl,rfl,rfl,rfl,rfl⟩
        exact sightTrans (sightTrans noted tracked) (lookUpSight key)

theorem readViewSame (same : SameSight engine next) (session) :
    next.manager.readView session = engine.manager.readView session := by
  unfold readView
  rw [same.sessions]
  cases engine.manager.sessions.find session with
  | none => rfl
  | some id =>
    have others : ∀ entries : List (TxnId × Transaction),
        ((entries.filter fun e => e.2.state = .active ∧ e.2.id ≠ id).map fun e => e.2.id) =
          (((entries.map unreadEntry).filter fun e => e.2.state = .active ∧ e.2.id ≠ id).map fun e => e.2.id) := by
      intro entries
      rw [filter_map,map_map]
      rfl
    dsimp only
    rw [others,others engine.manager.active.entries,same.active]
    rcases same.txns id with ⟨here,there⟩ | ⟨_,_,here,there,started,-,-⟩
    · rw [here,there]
    · rw [here,there]
      simp [started]

theorem overlaySame (same : SameSight engine next) (session view) :
    buildReadOverlay next.manager session view = buildReadOverlay engine.manager session view := by
  unfold buildReadOverlay
  rw [same.mvcc]
  split
  · rfl
  · unfold TxnManager.withTxn
    rw [same.sessions]
    cases engine.manager.sessions.find session with
    | none => rfl
    | some id =>
      dsimp only
      rcases same.txns id with ⟨here,there⟩ | ⟨_,_,here,there,-,staged,running⟩
      · rw [here,there]
      · rw [here,there]
        simp only [running,stageOverlay,staged]
        split <;> rfl

theorem storeSame (same : SameSight engine next) (session) : forSession next session = forSession engine session := by
  unfold forSession
  rw [readViewSame same]
  split
  · rfl
  · rw [overlaySame same,same.tree]

end

def Reading : StoreOp → Prop
  | .get _ | .range _ _ | .rangeKeys _ _ | .iter | .lookUp _ | .scan _ _ => True
  | _ => False

abbrev Looks {α : Type} (script : StoreScript α) : Prop := Only Reading script

theorem looksScan (table) : Looks (scanTable table) := onlyBind (onlyCall trivial) fun _ => trivial

theorem looksKeyExists (table pk rowId) : Looks (keyExists table pk rowId) := by
  refine onlyBind (onlyCall trivial) fun packed => ?_
  cases found : packed.isSome with
  | true => trivial
  | false => exact onlyBind (onlyCall trivial) fun _ => trivial

theorem looksCheckKey (table colNames values pk) : Looks (checkKeyColumn table colNames values pk) :=
  onlyBind (onlyExcept _) fun pkRow => onlyBind (looksKeyExists table pk pkRow) fun _ => onlyExcept _

theorem looksUnique (table colNames values tableSchema) :
    Looks (enforceUniqueColumns table colNames values tableSchema) := by
  unfold enforceUniqueColumns
  split
  · trivial
  · exact onlyBind (looksScan table) fun existing => onlyForEach (fun col => onlyExcept _) _

theorem looksEnforce (schema table colNames values) : Looks (enforcePrimaryKey schema table colNames values) := by
  unfold enforcePrimaryKey
  split
  · trivial
  · exact onlyBind (onlyForEach (looksCheckKey table colNames values) _) fun _ => looksUnique table colNames values _

section
variable [Runtime] {schema : SchemaCatalog} {engine next : Engine} {table : String}

theorem readingSight (txn engine) (reads : Reading op) : SameSight engine (handle txn op engine).2 := by
  cases op with
  | lookUp key =>
    cases txn with
    | none => exact sightRefl _
    | some => exact getSight key
  | scan => cases txn <;> exact sightRefl _
  | put | delete | rawPut | rawDelete => exact reads.elim
  | _ => exact sightRefl _

theorem looksSight {α : Type} {script : StoreScript α} (looks : Looks script) (txn : Option UInt64) (engine : Engine) :
    SameSight engine (play (handle txn) script engine).2 :=
  playOnly sightRefl sightTrans (fun engine => readingSight txn engine) looks engine

def checkRow (schema : SchemaCatalog) (table : String) (colNames : List String) (rowExprs : List Expr) :
    StoreScript TableRow := do
  let row ← .ofExcept (rowValues colNames rowExprs)
  enforcePrimaryKey schema table colNames row.2
  let pending ← .ofExcept (encodeColumns schema table (colNames.zip row.2))
  return (row.1,pending)

def writeRow (inTxn : Bool) (table : String) (indexed : List String) (row : TableRow) : StoreScript Unit := do
  writePackedRow table row.1 row.2
  Script.forEach (fun c => indexEntryPut table c.1 c.2 row.1) (row.2.filter fun c => c.1 ∈ indexed)
  countRows inTxn table 1

theorem insertRowParts (schema inTxn table colNames indexed rowExprs) : insertRow schema inTxn table colNames indexed rowExprs =
      checkRow schema table colNames rowExprs >>= writeRow inTxn table indexed := by
  unfold checkRow
  simp only [bindAssoc]
  rfl

theorem looksCheckRow (schema table colNames rowExprs) : Looks (checkRow schema table colNames rowExprs) :=
  onlyBind (onlyExcept _) fun row => onlyBind (looksEnforce schema table colNames row.2) fun _ =>
    onlyBind (onlyExcept _) fun _ => trivial

/- The row that fails its checks is the first one of an insert, or the first match of an
update; a statement that fails before it comes to a row is one of these too. -/
def FirstRefused (schema : SchemaCatalog) (txn : Option UInt64) (engine : Engine) : DmlRefinement.Statement → Prop
  | .insert ins => ∀ colNames, insertColumns schema ins = .ok colNames → ∀ first ∈ ins.values.head?,
      ∃ fault, (play (handle txn) (checkRow schema ins.table colNames first) engine).1 = .error fault
  | .update upd => ∀ rows, (play (handle txn) (matchedRows upd.table upd.whereClause) engine).1 = .ok rows →
      ∀ first ∈ rows.head?, ∃ fault, encodeAssignments schema upd.table first.2 upd.assignments = .error fault
  | .delete _ => False

theorem playExcept {α : Type} (txn) (result : Except EngineFault α) (engine) :
    play (handle txn) (.ofExcept result) engine = (result,engine) := by
  cases result <;> rfl

theorem playIndexed (txn table engine) : (play (handle txn) (indexedColumns table) engine).2 = engine := by
  unfold indexedColumns
  rw [playBind]
  have read : (play (handle txn) (treeRange (metaPrefix ++ (utf8 table ++ [0]))
      (prefixEnd (metaPrefix ++ (utf8 table ++ [0])))) engine).2 = engine := by
    have asked := playCall (handle txn) (StoreOp.range (metaPrefix ++ (utf8 table ++ [0]))
      (prefixEnd (metaPrefix ++ (utf8 table ++ [0])))) engine
    exact congrArg Prod.snd asked
  split <;> rename_i ran <;> exact (congrArg Prod.snd ran).symm.trans read

theorem insertRefusedSight {ins : InsertStmt} (first : FirstRefused schema txn engine (.insert ins))
    (failed : play (handle txn) (executeInsert schema inTxn ins) engine = (.error fault,next)) : SameSight engine next := by
  unfold executeInsert at failed
  rcases playBindCases failed with ⟨e,columns,-⟩ | ⟨colNames,mid,columns,later⟩ <;>
    rw [playExcept,Prod.mk.injEq] at columns <;> obtain ⟨columns,rfl⟩ := columns
  · exact sightRefl _
  · have same := playIndexed txn ins.table engine
    rcases playBindCases later with ⟨e,read,-⟩ | ⟨indexed,mid,read,ends⟩ <;> rw [read] at same <;> subst same
    · exact sightRefl _
    · cases values : ins.values with
      | nil =>
        rw [values] at ends
        cases ends
      | cons row =>
        obtain ⟨e,refused⟩ := first colNames columns row (by simp [values])
        have looks := looksSight (looksCheckRow schema ins.table colNames row) txn mid
        cases ran : play (handle txn) (checkRow schema ins.table colNames row) mid with
        | mk _ after =>
          rw [ran] at refused looks
          cases refused
          have stops : play (handle txn) (insertRow schema inTxn ins.table colNames indexed row) mid = (.error e,after) := by
            rw [insertRowParts,playBind,ran]
          simp only [values,playForEachFails stops,Prod.mk.injEq] at ends
          exact ends.2 ▸ looks

theorem updateRefusedSight {upd : UpdateStmt} (first : FirstRefused schema txn engine (.update upd))
    (failed : play (handle txn) (executeUpdate schema upd) engine = (.error fault,next)) : SameSight engine next := by
  unfold executeUpdate at failed
  have same := playIndexed txn upd.table engine
  rcases playBindCases failed with ⟨e,read,-⟩ | ⟨indexed,mid,read,later⟩ <;> rw [read] at same <;> subst same
  · exact sightRefl _
  · have looks := @looksSight _ _ (matchedRows upd.table upd.whereClause) (onlyBind (looksScan _) fun _ => onlyExcept _) txn mid
    rcases playBindCases later with ⟨e,matching,-⟩ | ⟨rows,after,matching,ends⟩ <;> rw [matching] at looks
    · exact looks
    · cases rows with
      | nil => cases ends
      | cons row rest =>
        obtain ⟨e,refused⟩ := first (row :: rest) (congrArg Prod.fst matching) row rfl
        have stops : play (handle txn) (updateRow schema upd indexed row) after = (.error e,after) := by
          unfold updateRow
          rw [playBind,playExcept,refused]
        simp only [playBind,playForEachFails stops,Prod.mk.injEq] at ends
        exact ends.2 ▸ looks

end

section
variable {rows after : Rows} {table : String}

def shown (table : String) (rows : Rows) (id : String) : Option (List (String × Bytes)) :=
  ((groups table rows).find (utf8 id)).map Gathered.row

def overlaid (table : String) (rows : Rows) (row : TableRow) : List (String × Bytes) :=
  (rowGroup table rows (utf8 row.1)).cells.foldl setColumn row.2

def lastOf (new : List TableRow) (id : String) : Option TableRow := new.reverse.find? fun row => row.1 = id

theorem memShown (texts : Texts rows) {row} : row ∈ tableRows table rows ↔ shown table rows row.1 = some row.2 := by
  rw [tableRowsGroups,mem_map]
  constructor
  · rintro ⟨e,mem,rfl⟩
    have coded := (groupedId texts mem).mpr rfl
    have found := Table.memIff.mp mem
    rw [coded] at found
    unfold shown
    rw [found]
    rfl
  · intro seen
    obtain ⟨group,found,columns⟩ := Option.map_eq_some_iff.mp seen
    refine ⟨(utf8 row.1,group),Table.memIff.mpr found,?_⟩
    rw [groupedRow,lossyEncoded,columns]

theorem rowsAscending (texts : Texts rows) (table) :
    (tableRows table rows).Pairwise fun a b => utf8 a.1 < utf8 b.1 := by
  rw [tableRowsGroups,pairwise_map]
  refine (groups table rows).ascending.imp_of_mem fun {a b} mem mem' less => ?_
  rwa [← (groupedId texts mem).mpr rfl,← (groupedId texts mem').mpr rfl]

theorem contentShown (texts : Texts rows) (texts' : Texts after) :
    tableRows table after = tableRows table rows ↔ ∀ id, shown table after id = shown table rows id := by
  constructor
  · intro same id
    refine Option.ext fun columns => ?_
    have member := @memShown after table texts' (id,columns)
    rw [same,memShown texts] at member
    exact member.symm
  · intro same
    refine List.Pairwise.eq_of_mem_iff (rowsAscending texts' table) (rowsAscending texts table) fun row => ?_
    rw [memShown texts',memShown texts,same]

theorem storedShown (fits : Packable row.2) (clear : (0 : UInt8) ∉ utf8 row.1) (id) :
    shown table (stored table row rows) id = if row.1 = id then some (overlaid table rows row) else shown table rows id := by
  unfold shown
  rw [storedGroups fits clear,Table.findInsert]
  by_cases same : row.1 = id
  · rw [if_pos (congrArg utf8 same),if_pos same]
    rfl
  · rw [if_neg fun equal => same (utf8Injective equal),if_neg same]

theorem overlaidStored (clear : (0 : UInt8) ∉ utf8 row.1) (other) :
    overlaid table (stored table row rows) other = overlaid table rows other := by
  unfold overlaid
  rw [cellsStored table row rows clear]

theorem storedAllShown {new} (fits : ∀ row ∈ new, Packable row.2)
    (clear : ∀ row ∈ new, (0 : UInt8) ∉ utf8 row.1) (id : String) : shown table (storedAll table new rows) id =
      ((lastOf new id).map (overlaid table rows)).or (shown table rows id) := by
  induction new generalizing rows with
  | nil => rfl
  | cons row rest ih =>
    obtain ⟨fit,fits'⟩ := forall_mem_cons.mp fits
    obtain ⟨clean,clear'⟩ := forall_mem_cons.mp clear
    have later := @ih (stored table row rows) fits' clear'
    have same : overlaid table (stored table row rows) = overlaid table rows := funext (overlaidStored clean)
    rw [same,storedShown fit clean] at later
    show shown table (storedAll table rest (stored table row rows)) id = _
    rw [later]
    unfold lastOf
    rw [reverse_cons,List.find?_append]
    cases rest.reverse.find? fun row => row.1 = id with
    | some => rfl
    | none =>
      by_cases here : row.1 = id
      · simp [here]
      · simp [here]

end

theorem deleteNeverStops {after} : runEach (deletedRow table) matched rows ≠ (.error fault,after) := by
  induction matched generalizing rows with
  | nil => exact fun failed => nomatch failed
  | cons _ _ ih => exact ih

section
variable [Runtime] {schema : SchemaCatalog} {rows after : Rows} {table : String} {fault : EngineFault}

def acceptedRows (schema : SchemaCatalog) (table : String) (colNames : List String) : List (List Expr) → Rows → List TableRow
  | [],_ => []
  | rowExprs :: rest,rows =>
      match acceptRow schema table colNames rows rowExprs with
      | .error _ => []
      | .ok row => row :: acceptedRows schema table colNames rest (stored table row rows)

def accepted (schema : SchemaCatalog) (ins : InsertStmt) (rows : Rows) : List TableRow :=
  match insertColumns schema ins with
  | .error _ => []
  | .ok colNames => acceptedRows schema ins.table colNames ins.values rows

def rewritten (schema : SchemaCatalog) (upd : UpdateStmt) (rows : Rows) : List TableRow :=
  match evaluated (matchingRows upd.whereClause (tableRows upd.table rows)) with
  | .error _ => []
  | .ok matched => matched.takeWhile fun row => (encodeAssignments schema upd.table row.2 upd.assignments).isOk

theorem insertStops (failed : runEach (insertedRow schema table colNames) values rows = (.error fault,after)) :
    after = storedAll table (acceptedRows schema table colNames values rows) rows := by
  induction values generalizing rows with
  | nil => cases failed
  | cons rowExprs _ ih =>
    simp only [runEach,insertedRow] at failed
    unfold acceptedRows
    cases checked : acceptRow schema table colNames rows rowExprs with
    | error =>
      rw [checked] at failed
      cases failed
      rfl
    | ok =>
      rw [checked] at failed
      exact ih failed

theorem updateStops (failed : runEach (updatedRow schema upd) matched rows = (.error fault,after)) :
    after = (matched.takeWhile fun row => (encodeAssignments schema upd.table row.2 upd.assignments).isOk).foldl
      (fun rows row => replaced upd.table (assignedRow schema upd row) rows) rows := by
  induction matched generalizing rows with
  | nil => cases failed
  | cons row _ ih =>
    simp only [runEach,updatedRow] at failed
    cases encoded : encodeAssignments schema upd.table row.2 upd.assignments with
    | error =>
      rw [encoded] at failed
      cases failed
      simp [List.takeWhile,encoded,Except.isOk,Except.toBool]
    | ok =>
      rw [encoded] at failed
      have later := ih failed
      simp only [List.takeWhile,encoded,Except.isOk,Except.toBool,foldl_cons,assignedRow]
      exact later

theorem insertFailed (failed : outcome schema (.insert ins) rows = (.error fault,after)) :
    after = storedAll ins.table (accepted schema ins rows) rows := by
  unfold accepted
  cases columns : insertColumns schema ins with
  | error =>
    simp only [outcome,insertRows,columns,Prod.mk.injEq] at failed
    exact failed.2.symm
  | ok =>
    simp only [outcome,insertRows,columns] at failed
    exact insertStops failed

theorem updateFailed (failed : outcome schema (.update upd) rows = (.error fault,after)) :
    after = (rewritten schema upd rows).foldl
      (fun rows row => replaced upd.table (assignedRow schema upd row) rows) rows := by
  unfold rewritten
  rcases matchedCases failed with ⟨e,matching,-,same⟩ | ⟨_,matching,ran⟩
  · rw [matching]
    exact same
  · rw [matching]
    exact updateStops ran

theorem deleteFailed (failed : outcome schema (.delete del) rows = (.error fault,after)) : after = rows := by
  rcases matchedCases failed with ⟨e,-,-,same⟩ | ⟨_,-,ran⟩
  · exact same
  · exact absurd ran deleteNeverStops

def Kept (schema : SchemaCatalog) : DmlRefinement.Statement → Rows → Prop
  | .insert ins,rows => ∀ id row, lastOf (accepted schema ins rows) id = some row →
      (id,overlaid ins.table rows row) ∈ tableRows ins.table rows
  | .update upd,rows => ∀ row ∈ rewritten schema upd rows, assignedRow schema upd row = row
  | .delete _,_ => True

def ClearIds (schema : SchemaCatalog) : DmlRefinement.Statement → Rows → Prop
  | .insert ins,rows => ∀ row ∈ accepted schema ins rows, (0 : UInt8) ∉ utf8 row.1
  | _,_ => True

theorem acceptedSource : ∀ row ∈ acceptedRows schema table colNames values rows,
      ∃ rowExprs ∈ values, newRow schema table colNames rowExprs = .ok row := by
  induction values generalizing rows with
  | nil => exact fun _ mem => nomatch mem
  | cons rowExprs _ ih =>
    unfold acceptedRows
    cases checked : acceptRow schema table colNames rows rowExprs with
    | error => exact fun _ mem => nomatch mem
    | ok =>
      refine forall_mem_cons.mpr ⟨⟨rowExprs,mem_cons_self,acceptedNew checked⟩,fun row mem => ?_⟩
      obtain ⟨source,listed,made⟩ := ih row mem
      exact ⟨source,mem_cons_of_mem _ listed,made⟩

theorem acceptedPack (packs : Packs schema (.insert ins) (tableRows ins.table rows)) :
    ∀ row ∈ accepted schema ins rows, Packable row.2 := by
  unfold accepted
  cases columns : insertColumns schema ins with
  | error => exact fun _ mem => nomatch mem
  | ok colNames =>
    intro row mem
    obtain ⟨rowExprs,listed,made⟩ := acceptedSource row mem
    exact newRowPack (packs colNames columns rowExprs listed) made

theorem insertKeptIff (named : Named ins.table) (texts : Texts rows)
    (packs : Packs schema (.insert ins) (tableRows ins.table rows)) (clear : ClearIds schema (.insert ins) rows) :
    tableRows ins.table (storedAll ins.table (accepted schema ins rows) rows) = tableRows ins.table rows ↔
      Kept schema (.insert ins) rows := by
  rw [contentShown texts (storedAllTexts named texts _)]
  have shows' := @storedAllShown rows ins.table _ (acceptedPack packs) clear
  constructor
  · intro same id row last
    rw [memShown texts,← same,shows',last]
    rfl
  · intro kept id
    rw [shows']
    cases last : lastOf (accepted schema ins rows) id with
    | none => rfl
    | some row => exact ((memShown texts).mp (kept id row last)).symm

theorem rewrittenParts {upd} (texts : Texts rows) :
    ((rewritten schema upd rows).map Prod.fst).Nodup ∧ ∀ row ∈ rewritten schema upd rows,
      row ∈ tableRows upd.table rows ∧ ∃ pending, encodeAssignments schema upd.table row.2 upd.assignments = .ok pending := by
  unfold rewritten
  cases matching : evaluated (matchingRows upd.whereClause (tableRows upd.table rows)) with
  | error => exact ⟨nodup_nil,fun _ mem => nomatch mem⟩
  | ok matched =>
    have listed := matchingChosen matching
    have part := @takeWhile_sublist TableRow matched fun row =>
      (encodeAssignments schema upd.table row.2 upd.assignments).isOk
    subst listed
    refine ⟨(filteredDistinct texts upd.table _).sublist (part.map Prod.fst),fun row mem => ⟨?_,?_⟩⟩
    · exact (mem_filter.mp (part.subset mem)).1
    · have passed := mem_takeWhile_imp mem
      cases encoded : encodeAssignments schema upd.table row.2 upd.assignments with
      | error =>
        rw [encoded] at passed
        cases passed
      | ok pending => exact ⟨pending,rfl⟩

theorem updateKeptIff (named : Named upd.table) (texts : Texts rows)
    (packs : Packs schema (.update upd) (tableRows upd.table rows)) :
    tableRows upd.table ((rewritten schema upd rows).foldl
        (fun rows row => replaced upd.table (assignedRow schema upd row) rows) rows) = tableRows upd.table rows ↔
      Kept schema (.update upd) rows := by
  obtain ⟨distinct,parts⟩ := @rewrittenParts _ schema rows upd texts
  have fits : ∀ row ∈ rewritten schema upd rows, Packable (assignedRow schema upd row).2 := by
    intro row mem
    obtain ⟨listed,pending,encoded⟩ := parts row mem
    simp only [assignedRow,encoded]
    exact (packs row listed pending encoded).1
  rw [replacedAll named (assignedId upd) texts fits distinct fun row mem => (parts row mem).1]
  constructor
  · intro same row mem
    have mapped : (tableRows upd.table rows).map (fun row => if row ∈ rewritten schema upd rows then
        assignedRow schema upd row else row) = (tableRows upd.table rows).map id := same.trans (map_id _).symm
    have here := map_inj_left.mp mapped row (parts row mem).1
    rwa [if_pos mem] at here
  · intro kept
    refine (map_congr_left fun row _ => ?_).trans (map_id _)
    split
    · rename_i mem
      exact kept row mem
    · rfl

theorem failedKeptIff (named : Named statement.table) (texts : Texts rows)
    (packs : Packs schema statement (tableRows statement.table rows)) (clear : ClearIds schema statement rows)
    (failed : outcome schema statement rows = (.error fault,after)) :
    (tableRows statement.table after = tableRows statement.table rows ↔ Kept schema statement rows) ∧
      ∀ key, ¬tablePrefix statement.table <+: key → after.find key = rows.find key := by
  cases statement with
  | insert =>
    obtain rfl := insertFailed failed
    exact ⟨insertKeptIff named texts packs clear,fun key outside => foldElsewhere (storedOutside outside) _⟩
  | update upd =>
    obtain rfl := updateFailed failed
    refine ⟨updateKeptIff named texts packs,fun key outside => ?_⟩
    exact foldElsewhere (fun row => replacedOutside outside (assignedRow schema upd row)) _
  | delete =>
    obtain rfl := deleteFailed failed
    exact ⟨⟨fun _ => trivial,fun _ => rfl⟩,fun _ _ => rfl⟩

end

section
variable [Runtime] {schema : SchemaCatalog} {engine next : Engine} {rows : Rows} {fault : EngineFault}

theorem actsStopped {α : Type} {script} {result : Outcome α} (acts : Acts script rows result)
    (tracks : Tracks engine rows) (room : clock engine+steps (handle none) script engine ≤ clockLimit)
    (cause : ¬StorageFault fault) (failed : play (handle none) script engine = (.error fault,next)) :
    ∃ after, result = (.error fault,after) ∧ Tracks next after := by
  rcases playLeads handleRefines acts tracks room with ⟨e,u,stopped,why⟩ | ⟨u,v,tracks',⟨b,ended,-⟩ | ⟨e,stopped,bad⟩⟩
  · cases failed.symm.trans stopped
    exact absurd why cause
  · cases failed.symm.trans ended
  · cases failed.symm.trans stopped
    exact ⟨v,bad,tracks'⟩

end

def twice : InsertStmt :=
  ⟨"t",none,[[.literal (.string "a"),.literal (.string "1")],[.literal (.string "a"),.literal (.string "2")]]⟩

def attempt (ins : InsertStmt) (engine : Engine) :
    Except EngineFault Unit × Option (List TableRow) × Option (List TableRow) :=
  let ended := @play _ _ _ _ (@handle plainRuntime none) (@Request.script plainRuntime keyed false (.insert ins)) engine
  (ended.1,(@content plainRuntime engine "t").toOption,(@content plainRuntime ended.2 "t").toOption)

def duplicateKey : EngineFault :=
  .error (.exec (.typeMismatch "PRIMARY KEY constraint failed: duplicate `k` = `a`"))

def keyMissing : InsertStmt := ⟨"t",none,[[.literal .null,.literal (.string "2")]]⟩
def missingKey : EngineFault :=
  .error (.exec (.typeMismatch "NOT NULL constraint failed for PRIMARY KEY `t.k`"))

end NoeDB.DmlFailures
