import NoeDB.DmlContent

/-! The relational meaning of the statements over the rows of a table, and that outside of
transactions the statements have it: updates and deletes always, inserts where the ids of
the new rows are new. -/
namespace NoeDB.DmlRelations
open ByteString Text Platform List
open SqlAst RowPack Schema Dml DmlRules DmlRows DmlContent

abbrev TableRow := String × List (String × Bytes)

instance : DecidableEq TableRow := inferInstanceAs (DecidableEq (String × List (String × Bytes)))

section
variable [Runtime] (schema : SchemaCatalog)

def newRow (table : String) (colNames : List String) (rowExprs : List Expr) : Except EngineFault TableRow := do
  let row ← rowValues colNames rowExprs
  let pending ← encodeColumns schema table (colNames.zip row.2)
  .ok (row.1,pending)

def newRows (ins : InsertStmt) : Except EngineFault (List TableRow) := do
  let colNames ← insertColumns schema ins
  ins.values.mapM (newRow schema ins.table colNames)

def assignedRow (upd : UpdateStmt) (row : TableRow) : TableRow :=
  match encodeAssignments schema upd.table row.2 upd.assignments with
  | .ok pending => (row.1,pending.foldl setColumn row.2)
  | .error _ => row

end

section
variable {rows : Rows} {table : String}

def storedAll (table : String) (new : List TableRow) (rows : Rows) : Rows :=
  new.foldl (fun rows row => stored table row rows) rows

theorem storedTexts (named : Named table) (texts : Texts rows) (row) : Texts (stored table row rows) :=
  textsInsert texts (packedTableKey named _) _

theorem storedAllTexts (named : Named table) (texts : Texts rows) (new) : Texts (storedAll table new rows) := by
  induction new generalizing rows with
  | nil => exact texts
  | cons row _ ih => exact ih (storedTexts named texts row)

theorem storedBeside (named : Named table) (texts : Texts rows) (fits : ∀ row ∈ new, Packable row.2)
    (distinct : (new.map Prod.fst).Nodup) (clear : ∀ row ∈ new, (0 : UInt8) ∉ utf8 row.1)
    (fresh : ∀ row ∈ new, row.1 ∉ ids table rows) :
    (tableRows table (storedAll table new rows)).Perm (tableRows table rows ++ new) := by
  induction new generalizing rows with
  | nil => simp [storedAll]
  | cons row rest ih =>
    rw [map_cons,nodup_cons] at distinct
    obtain ⟨fit,fits'⟩ := forall_mem_cons.mp fits
    obtain ⟨clean,clear'⟩ := forall_mem_cons.mp clear
    obtain ⟨first,fresh'⟩ := forall_mem_cons.mp fresh
    have here := storedFresh texts fit clean first
    have later : ∀ r ∈ rest, r.1 ∉ ids table (stored table row rows) := by
      intro r mem listed
      have known : r.1 ∈ row.1 :: ids table rows := (here.map Prod.fst).mem_iff.mp listed
      rcases mem_cons.mp known with same | old
      · exact distinct.1 (same ▸ mem_map_of_mem mem)
      · exact fresh' r mem old
    refine (ih (storedTexts named texts row) fits' distinct.2 clear' later).trans ?_
    exact (here.append_right rest).trans perm_middle.symm

theorem storedBesideIff (named : Named table) (texts : Texts rows) (fits : ∀ row ∈ new, Packable row.2) :
    (tableRows table (storedAll table new rows)).Perm (tableRows table rows ++ new) ↔
      (new.map Prod.fst).Nodup ∧ ∀ row ∈ new, (0 : UInt8) ∉ utf8 row.1 ∧ row.1 ∉ ids table rows := by
  constructor
  · intro beside
    have after := storedAllTexts named texts new
    have listed : (ids table (storedAll table new rows)).Perm (ids table rows ++ new.map Prod.fst) := by
      have mapped := beside.map Prod.fst
      rwa [map_append] at mapped
    obtain ⟨-,distinct,apart⟩ := nodup_append.mp (listed.nodup_iff.mp (idsNodup after))
    refine ⟨distinct,fun row mem => ?_⟩
    have inside : row.1 ∈ new.map Prod.fst := mem_map_of_mem mem
    exact ⟨idsClear after (listed.mem_iff.mpr (mem_append_right _ inside)),fun old => apart _ old _ inside rfl⟩
  · rintro ⟨distinct,new'⟩
    exact storedBeside named texts fits distinct (fun row mem => (new' row mem).1) fun row mem => (new' row mem).2

theorem sameId (texts : Texts rows) (mem : r ∈ tableRows table rows) (mem' : s ∈ tableRows table rows)
    (same : r.1 = s.1) : r = s :=
  inj_on_of_nodup_map (idsNodup texts) mem mem' same

theorem replacedAll (named : Named table) {f : TableRow → TableRow} (keeps : ∀ r, (f r).1 = r.1) (texts : Texts rows)
    {list : List TableRow} (fits : ∀ r ∈ list, Packable (f r).2) (distinct : (list.map Prod.fst).Nodup)
    (listed : ∀ r ∈ list, r ∈ tableRows table rows) :
    tableRows table (list.foldl (fun rows r => replaced table (f r) rows) rows) =
      (tableRows table rows).map fun r => if r ∈ list then f r else r := by
  induction list generalizing rows with
  | nil => simp
  | cons x rest ih =>
    rw [map_cons,nodup_cons] at distinct
    obtain ⟨fit,fits'⟩ := forall_mem_cons.mp fits
    obtain ⟨here,others⟩ := forall_mem_cons.mp listed
    have known : (f x).1 ∈ ids table rows := (keeps x).symm ▸ mem_map_of_mem here
    have step := replacedRow texts fit known
    rw [keeps] at step
    have apart : ∀ r ∈ rest, r.1 ≠ x.1 := fun r mem same => distinct.1 (same ▸ mem_map_of_mem mem)
    have later : ∀ r ∈ rest, r ∈ tableRows table (replaced table (f x) rows) := by
      intro r mem
      rw [step,mem_map]
      exact ⟨r,others r mem,if_neg (apart r mem)⟩
    rw [foldl_cons,@ih (replaced ..) (textsFilter (storedTexts named texts _) _) fits' distinct.2 later,step,map_map]
    refine map_congr_left fun r mem => ?_
    by_cases same : r.1 = x.1
    · have equal := sameId texts mem here same
      have outside : f x ∉ rest := fun inside => apart _ inside (keeps x)
      simp [equal,outside]
    · have differs : r ≠ x := fun equal => same (congrArg Prod.fst equal)
      simp [same,differs]

theorem removedAll (texts : Texts rows) {list : List TableRow} (distinct : (list.map Prod.fst).Nodup)
    (listed : ∀ r ∈ list, r ∈ tableRows table rows) :
    tableRows table (list.foldl (fun rows r => removed table r.1 rows) rows) =
      (tableRows table rows).filter fun r => r ∉ list := by
  induction list generalizing rows with
  | nil => simp
  | cons x rest ih =>
    rw [map_cons,nodup_cons] at distinct
    obtain ⟨here,others⟩ := forall_mem_cons.mp listed
    have known : x.1 ∈ ids table rows := mem_map_of_mem here
    have step := @removedRow rows table texts x.1 (idsClear texts known)
    have later : ∀ r ∈ rest, r ∈ tableRows table (removed table x.1 rows) := by
      intro r mem
      rw [step,mem_filter]
      refine ⟨others r mem,?_⟩
      simp only [decide_eq_true_eq]
      exact fun same => distinct.1 (same ▸ mem_map_of_mem mem)
    rw [foldl_cons,@ih (removed ..) (textsFilter (textsErase texts _) _) distinct.2 later,step,filter_filter]
    refine filter_congr fun r mem => ?_
    have same : r.1 = x.1 ↔ r = x := ⟨sameId texts mem here,congrArg Prod.fst⟩
    simp [same,Bool.and_comm]

theorem foldElsewhere {γ : Type} {f : γ → Rows → Rows} (each : ∀ c rows, (f c rows).find key = rows.find key)
    (list : List γ) : (list.foldl (fun rows c => f c rows) rows).find key = rows.find key := by
  induction list generalizing rows with
  | nil => rfl
  | cons c _ ih =>
    rw [foldl_cons,ih]
    exact each c rows

theorem deleteRun {after} (done : runEach (deletedRow table) matched rows = (.ok (),after)) :
    after = matched.foldl (fun rows r => removed table r.1 rows) rows := by
  induction matched generalizing rows with
  | nil =>
    cases done
    rfl
  | cons _ _ ih => exact ih done

end

section
variable [Runtime] {schema : SchemaCatalog} {rows after : Rows} {table : String}

theorem acceptedNew
    (accepted : acceptRow schema table colNames rows rowExprs = .ok row) : newRow schema table colNames rowExprs = .ok row := by
  unfold acceptRow at accepted
  unfold newRow
  cases valued : rowValues colNames rowExprs with
  | error =>
    rw [valued] at accepted
    cases accepted
  | ok values =>
    rw [valued] at accepted
    simp only [Bind.bind,Except.bind] at accepted ⊢
    cases passed : enforced schema table colNames values.2 rows with
    | error =>
      rw [passed] at accepted
      cases accepted
    | ok =>
      rw [passed] at accepted
      exact accepted

theorem insertRun (done : runEach (insertedRow schema table colNames) values rows = (.ok (),after)) :
    ∃ new, values.mapM (newRow schema table colNames) = .ok new ∧ after = storedAll table new rows := by
  induction values generalizing rows with
  | nil =>
    cases done
    exact ⟨[],rfl,rfl⟩
  | cons rowExprs _ ih =>
    simp only [runEach,insertedRow] at done
    cases accepted : acceptRow schema table colNames rows rowExprs with
    | error =>
      rw [accepted] at done
      cases done
    | ok row =>
      rw [accepted] at done
      obtain ⟨new,all,rfl⟩ := ih done
      refine ⟨row :: new,?_,rfl⟩
      rw [mapM_cons,acceptedNew accepted]
      rw [all]
      rfl

theorem updateRun (done : runEach (updatedRow schema upd) matched rows = (.ok (),after)) :
    after = matched.foldl (fun rows r => replaced upd.table (assignedRow schema upd r) rows) rows ∧
      ∀ r ∈ matched, ∃ pending, encodeAssignments schema upd.table r.2 upd.assignments = .ok pending := by
  induction matched generalizing rows with
  | nil =>
    cases done
    exact ⟨rfl,fun _ mem => nomatch mem⟩
  | cons row _ ih =>
    simp only [runEach,updatedRow] at done
    cases encoded : encodeAssignments schema upd.table row.2 upd.assignments with
    | error =>
      rw [encoded] at done
      cases done
    | ok pending =>
      rw [encoded] at done
      obtain ⟨rfl,each⟩ := ih done
      refine ⟨?_,forall_mem_cons.mpr ⟨⟨pending,encoded⟩,each⟩⟩
      simp only [foldl_cons,assignedRow,encoded]
      rfl

theorem assignedId (upd row) : (assignedRow schema upd row).1 = row.1 := by
  unfold assignedRow
  split <;> rfl

end
end NoeDB.DmlRelations
