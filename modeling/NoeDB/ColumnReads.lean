import NoeDB.RowOrder

/-! How a qualified column is found in a joined row: by its whole name in expressions
(noedb-planner: eval.rs, `eval_column`), by the part behind the last dot in the executor
(executor.rs, `row_value` and `compare_rows`; join.rs, `join_key_value`). -/
namespace NoeDB.ColumnReads
open Text SqlValue SqlEval Plans RowOrder List Option

def lastPart (name : String) : String :=
  match rsplitOnce '.' name with
  | some (_,bare) => bare
  | none => name

theorem matchesQualified (stored table column) :
    columnNameMatches stored (qualified table column) = decide (lastPart stored = lastPart (qualified table column)) := by
  have dotted : '.' ∈ (qualified table column).toList := by simp [qualified]
  rcases rsplitOnceCut '.' (qualified table column) with ⟨_,clear⟩ | ⟨_,bare,cut,_,clear⟩
  · exact absurd dotted clear
  rcases rsplitOnceCut '.' stored with ⟨uncut,plain⟩ | ⟨_,column',cut',whole,clear'⟩
  · have other : stored ≠ qualified table column := fun same => plain (same ▸ dotted)
    simp [columnNameMatches,bareName,lastPart,cut,uncut,other]
  · have other : column' ≠ qualified table column := fun same => clear' (same ▸ dotted)
    have longer : stored ≠ bare := fun same => clear (by rw [← same,whole]; simp)
    by_cases same : stored = qualified table column
    · simp [columnNameMatches,same]
    · simp [columnNameMatches,bareName,lastPart,cut,cut',other,longer,same]

def ReadsNamed (row : Row) (table column : String) : Prop :=
  ∃ v, evalColumn (.named (some table) column) row = .ok v ∧ rowValue row (qualified table column) = v ∧
    joinKeyValue row (qualified table column) = some v.asBytes ∧ sortField (qualified table column) row = some v

def Unshadowed (row : Row) (name : String) : Prop :=
  ∀ field, row.find? (fun field => lastPart field.1 = lastPart name) = some field → findColumn name row = some field.2

theorem readsNamedIff {row table column} (there : ∃ v, (qualified table column,v) ∈ row) :
    ReadsNamed row table column ↔ Unshadowed row (qualified table column) := by
  obtain ⟨v,mem⟩ := there
  obtain ⟨named,found⟩ : ∃ named, findColumn (qualified table column) row = some named := by
    have some' : (row.find? fun field => field.1 = qualified table column).isSome := by
      rw [find?_isSome]
      exact ⟨_,mem,by simp⟩
    obtain ⟨field,first⟩ := isSome_iff_exists.mp some'
    exact ⟨field.2,by simp [findColumn,first,map_some]⟩
  have evaluated : evalColumn (.named (some table) column) row = .ok named := by
    simp only [evalColumn]
    rw [show table ++ "." ++ column = qualified table column from rfl,found]
  obtain ⟨field,first⟩ : ∃ field,
      row.find? (fun field => lastPart field.1 = lastPart (qualified table column)) = some field := by
    refine isSome_iff_exists.mp ?_
    rw [find?_isSome]
    exact ⟨_,mem,by simp⟩
  have sorted : sortField (qualified table column) row = some field.2 := by
    simp [sortField,matchesQualified,first,map_some]
  have keyed : joinKeyValue row (qualified table column) = some field.2.asBytes := by
    simp [joinKeyValue,matchesQualified,first,map_some]
  unfold ReadsNamed Unshadowed
  simp only [rowValue,sorted,keyed,evaluated,first,found,getD_some,Except.ok.injEq,some.injEq]
  constructor
  · rintro ⟨v,rfl,_,_,same⟩ _ rfl
    exact same.symm
  · intro same
    have equal := same field rfl
    exact ⟨named,rfl,equal.symm,by rw [equal],equal.symm⟩

/- `employees e JOIN employees m`. -/
def selfJoined : Row := [("e.name",.bytes [97]),("m.name",.bytes [98])]

theorem leftNameRead : ReadsNamed selfJoined "e" "name" :=
  (readsNamedIff ⟨.bytes [97],mem_cons_self⟩).mpr (by unfold Unshadowed; decide +kernel)

theorem rightNameShadowed : evalColumn (.named (some "m") "name") selfJoined = .ok (.bytes [98]) ∧
    rowValue selfJoined "m.name" = .bytes [97] ∧ joinKeyValue selfJoined "m.name" = some [97] ∧
    sortField "m.name" selfJoined = some (.bytes [97]) := by decide +kernel

end NoeDB.ColumnReads
