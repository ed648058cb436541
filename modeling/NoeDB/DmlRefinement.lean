import NoeDB.EngineRuns

/-! Statements outside of transactions against the relational model: what a scan of each
table returns before and after a statement that has succeeded. -/
namespace NoeDB.DmlRefinement
open ByteString Text OrderedTable NewestPerKey Execution Lsm LsmTree LsmReads LsmVersions List
open Transactions TxnStorage Interaction Platform
open SqlAst RowPack Schema TableRegion Dml DmlRules DmlRows DmlContent DmlRelations
open EngineRuns

inductive Statement where
  | insert (ins : InsertStmt)
  | update (upd : UpdateStmt)
  | delete (del : DeleteStmt)

namespace Statement

def table : Statement → String
  | .insert ins => ins.table
  | .update upd => upd.table
  | .delete del => del.table

def request : Statement → Request
  | .insert ins => .insert ins
  | .update upd => .update upd
  | .delete del => .delete del

end Statement

section
variable [Runtime] (schema : SchemaCatalog)

def content (engine : Engine) (table : String) : Except EngineFault (List TableRow) :=
  (play (handle none) (scanTable table) engine).1

def Relational : Statement → List TableRow → List TableRow → Prop
  | .insert ins,before,after => ∃ new, newRows schema ins = .ok new ∧ after.Perm (before ++ new)
  | .update upd,before,after =>
      after.Perm (before.map fun row => if chosen upd.whereClause row then assignedRow schema upd row else row)
  | .delete del,before,after => after.Perm (before.filter fun row => !chosen del.whereClause row)

def NewIds : Statement → List TableRow → Prop
  | .insert ins,before => ∀ new, newRows schema ins = .ok new → (new.map Prod.fst).Nodup ∧
      ∀ row ∈ new, (0 : UInt8) ∉ utf8 row.1 ∧ row.1 ∉ before.map Prod.fst
  | _,_ => True

def Packs : Statement → List TableRow → Prop
  | .insert ins,_ => ∀ colNames, insertColumns schema ins = .ok colNames → ∀ rowExprs ∈ ins.values,
      InsertFits schema ins.table colNames rowExprs
  | .update upd,before => ∀ row ∈ before, UpdateFits schema upd row
  | .delete _,_ => True

def outcome : Statement → Rows → Except EngineFault Unit × Rows
  | .insert ins,rows => insertRows schema ins rows
  | .update upd,rows => andThen (updateRows schema upd rows) fun _ after => (.ok (),after)
  | .delete del,rows => andThen (DmlRows.deleteRows del rows) fun _ after => (.ok (),after)

end

theorem mapMSource {α β ε : Type} {f : α → Except ε β} {list : List α} {out} (done : list.mapM f = .ok out) :
    ∀ b ∈ out, ∃ a ∈ list, f a = .ok b := by
  induction list generalizing out with
  | nil =>
    cases done
    exact fun _ mem => nomatch mem
  | cons a rest ih =>
    rw [mapM_cons] at done
    cases first : f a with
    | error =>
      rw [first] at done
      cases done
    | ok =>
      rw [first] at done
      cases others : rest.mapM f with
      | error =>
        simp only [others,Bind.bind,Except.bind] at done
        cases done
      | ok =>
        simp only [others,Bind.bind,Except.bind,Pure.pure,Except.pure] at done
        cases done
        refine forall_mem_cons.mpr ⟨⟨a,mem_cons_self,first⟩,fun c mem => ?_⟩
        obtain ⟨source,listed,same⟩ := ih others c mem
        exact ⟨source,mem_cons_of_mem _ listed,same⟩

section
variable {rows : Rows} {table : String} {key : Bytes}

theorem storedOutside (outside : ¬tablePrefix table <+: key) (row rows) :
    (stored table row rows).find key = rows.find key :=
  insertElsewhere fun of => outside (ofRowTable of)

theorem replacedOutside (outside : ¬tablePrefix table <+: key) (row rows) :
    (replaced table row rows).find key = rows.find key := by
  have erased : (replaced table row rows).find key = (stored table row rows).find key :=
    eraseUnderElsewhere fun of => outside (ofRowTable of)
  rw [erased,storedOutside outside]

theorem removedOutside (outside : ¬tablePrefix table <+: key) (rowId rows) :
    (removed table rowId rows).find key = rows.find key := by
  have erased : (removed table rowId rows).find key = (rows.erase (packedRowKey table rowId)).find key :=
    eraseUnderElsewhere fun of => outside (ofRowTable of)
  rw [erased,eraseElsewhere fun of => outside (ofRowTable of)]

end

theorem filteredDistinct (texts : Texts rows) (table keep) :
    (((tableRows table rows).filter keep).map Prod.fst).Nodup :=
  (idsNodup texts).sublist (filter_sublist.map Prod.fst)

theorem matchedCases {found : Except EngineFault (List TableRow)} {rows after : Rows}
    {each : TableRow → Rows → Outcome Unit}
    (done : andThen (match found with
      | .error e => (.error e,rows)
      | .ok matched => andThen (runEach each matched rows) fun _ after => (.ok matched.length,after))
        (fun _ after => (.ok (),after)) = (result,after)) :
    (∃ e, found = .error e ∧ result = .error e ∧ after = rows) ∨
      ∃ matched, found = .ok matched ∧ runEach each matched rows = (result,after) := by
  cases found with
  | error e =>
    cases done
    exact .inl ⟨e,rfl,rfl,rfl⟩
  | ok matched =>
    refine .inr ⟨matched,rfl,?_⟩
    cases ran : runEach each matched rows with
    | mk ended =>
      simp only [ran,andThen] at done
      cases ended <;> exact done

section
variable [Runtime] {schema : SchemaCatalog} {rows after : Rows}

theorem statementActs (named : Named statement.table) (texts : Texts rows)
    (packs : Packs schema statement (tableRows statement.table rows)) :
    Acts (statement.request.script schema false) rows (outcome schema statement rows) := by
  cases statement with
  | insert => exact executeInsertActs named texts packs
  | update => exact actsBind (executeUpdateActs named texts packs) fun _ _ _ => rfl
  | delete => exact actsBind (executeDeleteActs named texts) fun _ _ _ => rfl

theorem insertedAll (done : outcome schema (.insert ins) rows = (.ok (),after)) :
    ∃ new, newRows schema ins = .ok new ∧ after = storedAll ins.table new rows := by
  unfold newRows
  cases columns : insertColumns schema ins with
  | error =>
    simp only [outcome,insertRows,columns] at done
    cases done
  | ok =>
    simp only [outcome,insertRows,columns] at done
    exact insertRun done

theorem updatedAll (done : outcome schema (.update upd) rows = (.ok (),after)) :
    after = ((tableRows upd.table rows).filter (chosen upd.whereClause)).foldl
      (fun rows row => replaced upd.table (assignedRow schema upd row) rows) rows ∧
      ∀ row ∈ (tableRows upd.table rows).filter (chosen upd.whereClause),
        ∃ pending, encodeAssignments schema upd.table row.2 upd.assignments = .ok pending := by
  rcases matchedCases done with ⟨e,-,stopped,-⟩ | ⟨_,matching,ran⟩
  · cases stopped
  · rw [← matchingChosen matching]
    exact updateRun ran

theorem deletedAll (done : outcome schema (.delete del) rows = (.ok (),after)) :
    after = ((tableRows del.table rows).filter (chosen del.whereClause)).foldl
      (fun rows row => removed del.table row.1 rows) rows := by
  rcases matchedCases done with ⟨e,-,stopped,-⟩ | ⟨_,matching,ran⟩
  · cases stopped
  · rw [← matchingChosen matching]
    exact deleteRun ran

theorem newRowPack
    (fits : InsertFits schema table colNames rowExprs) (made : newRow schema table colNames rowExprs = .ok row) :
    Packable row.2 := by
  unfold newRow at made
  cases valued : rowValues colNames rowExprs with
  | error =>
    rw [valued] at made
    cases made
  | ok values =>
    cases encoded : encodeColumns schema table (colNames.zip values.2) with
    | error =>
      simp only [valued,encoded,Bind.bind,Except.bind] at made
      cases made
    | ok pending =>
      simp only [valued,encoded,Bind.bind,Except.bind] at made
      cases made
      exact (fits values pending valued encoded).1

theorem newRowsPack {ins : InsertStmt} (packs : Packs schema (.insert ins) (tableRows ins.table rows))
    {new : List TableRow} (made : newRows schema ins = .ok new) : ∀ row ∈ new, Packable row.2 := by
  intro row mem
  unfold newRows at made
  cases columns : insertColumns schema ins with
  | error =>
    rw [columns] at made
    cases made
  | ok colNames =>
    rw [columns] at made
    obtain ⟨rowExprs,listed,one⟩ := mapMSource made row mem
    exact newRowPack (packs colNames columns rowExprs listed) one

theorem outcomeRelational (named : Named statement.table) (texts : Texts rows)
    (packs : Packs schema statement (tableRows statement.table rows))
    (done : outcome schema statement rows = (.ok (),after)) :
    Relational schema statement (tableRows statement.table rows) (tableRows statement.table after) ↔
      NewIds schema statement (tableRows statement.table rows) := by
  cases statement with
  | insert =>
    obtain ⟨new,made,rfl⟩ := insertedAll done
    have exactly := storedBesideIff named texts (newRowsPack packs made)
    constructor
    · rintro ⟨other,made',beside⟩
      cases made.symm.trans made'
      intro _ made'
      cases made.symm.trans made'
      exact exactly.mp beside
    · intro newIds
      exact ⟨new,made,exactly.mpr (newIds new made)⟩
  | update upd =>
    obtain ⟨rfl,encoded⟩ := updatedAll done
    have fits : ∀ row ∈ (tableRows upd.table rows).filter (chosen upd.whereClause),
        Packable (assignedRow schema upd row).2 := by
      intro row mem
      obtain ⟨pending,made⟩ := encoded row mem
      simp only [assignedRow,made]
      exact (packs row (mem_filter.mp mem).1 pending made).1
    have distinct := filteredDistinct texts upd.table (chosen upd.whereClause)
    have named' : Named upd.table := named
    have content := replacedAll named' (assignedId upd) texts fits distinct fun row mem => (mem_filter.mp mem).1
    refine ⟨fun _ => trivial,fun _ => ?_⟩
    show (tableRows upd.table _).Perm _
    rw [content]
    refine List.Perm.of_eq (map_congr_left fun row mem => ?_)
    simp [mem_filter,mem,true_and]
  | delete del =>
    obtain rfl := deletedAll done
    have distinct := filteredDistinct texts del.table (chosen del.whereClause)
    have content := @removedAll _ del.table texts _ distinct fun row mem => (mem_filter.mp mem).1
    refine ⟨fun _ => trivial,fun _ => ?_⟩
    show (tableRows del.table _).Perm _
    rw [content]
    refine List.Perm.of_eq (filter_congr fun row mem => ?_)
    simp [mem_filter,mem,true_and]

theorem outcomeOutside (done : outcome schema statement rows = (.ok (),after))
    (outside : ¬tablePrefix statement.table <+: key) : after.find key = rows.find key := by
  cases statement with
  | insert =>
    obtain ⟨new,-,rfl⟩ := insertedAll done
    exact foldElsewhere (storedOutside outside) new
  | update upd =>
    obtain ⟨rfl,-⟩ := updatedAll done
    exact foldElsewhere (fun row => replacedOutside outside (assignedRow schema upd row)) _
  | delete =>
    obtain rfl := deletedAll done
    exact foldElsewhere (fun row : TableRow => removedOutside outside row.1) _

end

section
variable [Runtime] {schema : SchemaCatalog} {engine next : Engine} {rows : Rows}

theorem actsPlayed {α : Type} {script result} (acts : Acts script rows result)
    (tracks : Tracks engine rows) (room : clock engine+steps (handle none) script engine ≤ clockLimit) {a : α}
    (done : play (handle none) script engine = (.ok a,next)) : ∃ after, result = (.ok a,after) ∧ Tracks next after := by
  rcases playLeads handleRefines acts tracks room with ⟨e,u,failed,-⟩ | ⟨u,v,tracks',⟨b,ended,good⟩ | ⟨e,failed,-⟩⟩
  · cases done.symm.trans failed
  · cases done.symm.trans ended
    exact ⟨v,good,tracks'⟩
  · cases done.symm.trans failed

theorem contentTracks (tracks : Tracks engine rows) (named : Named table) :
    content engine table = .ok (tableRows table rows) :=
  congrArg Prod.fst (scanShown tracks.region tracks.shows' named)

end

def keyless : SchemaCatalog :=
  ⟨1,Table.empty.insert "t" ⟨"t",[⟨"k",.text,false,false,false⟩,⟨"v",.text,false,false,false⟩],[],1⟩⟩
def insertPair (key value : String) : InsertStmt :=
  ⟨"t",none,[[.literal (.string key),.literal (.string value)]]⟩
def pair (key value : String) : TableRow := (key,[("k",utf8 key),("v",utf8 value)])

def bothContents (statement : Statement) (engine : Engine) : Option (Option (List TableRow) × Option (List TableRow)) :=
  match @play _ _ _ _ (@handle plainRuntime none) (@Request.script plainRuntime keyless false statement.request) engine with
  | (.ok _,next) => some ((@content plainRuntime engine "t").toOption,(@content plainRuntime next "t").toOption)
  | (.error _,_) => none

theorem optionOk {α : Type} {result : Except EngineFault α} {a} (same : result.toOption = some a) : result = .ok a := by
  cases result with
  | error => cases same
  | ok =>
    cases same
    rfl

theorem contentsKnown {statement : Statement} {engine before after}
    (both : bothContents statement engine = some (some before,some after)) : ∃ next,
    @play _ _ _ _ (@handle plainRuntime none) (@Request.script plainRuntime keyless false statement.request) engine =
      (.ok (),next) ∧ @content plainRuntime engine "t" = .ok before ∧ @content plainRuntime next "t" = .ok after := by
  unfold bothContents at both
  split at both
  · rename_i next ran
    simp only [Option.some.injEq,Prod.mk.injEq] at both
    exact ⟨next,ran,optionOk both.1,optionOk both.2⟩
  · cases both

def oneRow : List Event := [.tick,.request 0 .empty (.markTable "t" none),.request 0 keyless (.insert (insertPair "a" "1"))]

def cellEngine : Engine := (@perform plainRuntime (opened false).engine (writeCell [49]))

theorem cellOnly : scanned cellEngine.tree = [recordOf (rowKey "t" "a" "v") ((WriteOp.put [49]).version 1)] := by
  decide +kernel

theorem cellRegion : Region cellEngine.tree := by
  have own : TableKey (rowKey "t" "a" "v") := cellTableKey (by decide) "a" "v"
  have rising : @Rising plainRuntime (opened false) (writeCell [49]) := by
    refine @putRowRising plainRuntime _ _ _ _ _ _ _ ⟨own.named,by decide,.inr ⟨own,by decide,?_⟩⟩
    intro _ held
    cases held
  have all : @Admissible _ _ (@step plainRuntime) (@Rising plainRuntime) (opened false) [writeCell [49]] :=
    ⟨rising,fun _ _ => trivial⟩
  exact (@reachedHolds plainRuntime false [writeCell [49]] ⟨cellEngine,_⟩ all rfl).recoverable.region

theorem cellAhead : Ahead cellEngine := by
  intro _ _ _ held
  rw [Held,cellOnly,mem_singleton] at held
  rw [(recordInjective held).2]
  decide +kernel

end NoeDB.DmlRefinement
