import NoeDB.OrderedTable
import NoeDB.RowPack

/-! Grouping of a table's entries into rows, serially and in chunks (noedb-planner:
parallel.rs). -/
namespace NoeDB.ParallelScan
open ByteString OrderedTable SqlValue RowPack List

inductive EntryKind where
  | packed (bytes : Bytes)
  | cell (col : String) (val : Bytes)

structure Entry where
  rowId : Bytes
  kind : EntryKind

abbrev Slot := Option Row × Row
abbrev Grouped := Table Bytes Slot

def selected (columns : Option (List String)) (name : String) : Bool :=
  match columns with
  | none => true
  | some cols => cols.any (· = name)

def decodePacked (columns : Option (List String)) (bytes : Bytes) : Row :=
  (((decodeRow bytes).getD []).filter fun column => selected columns column.1).map fun column => (column.1,.bytes column.2)

def overrideCell (row : Row) (cell : String × Value) : Row :=
  match row.findIdx? fun field => field.1 = cell.1 with
  | some at' => row.modify at' fun field => (field.1,cell.2)
  | none => row ++ [cell]

def mergeRow (packed : Option Row) (cells : Row) : Row :=
  match packed with
  | none => cells
  | some row => cells.foldl overrideCell row

def slotAt (acc : Grouped) (rowId : Bytes) : Slot := (acc.find rowId).getD (none,[])

def ingest (columns : Option (List String)) (acc : Grouped) (entry : Entry) : Grouped :=
  let slot := slotAt acc entry.rowId
  acc.insert entry.rowId (match entry.kind with
    | .packed bytes => (some (decodePacked columns bytes),slot.2)
    | .cell col val => (slot.1,slot.2 ++ [(col,.bytes val)]))

def groupChunk (columns : Option (List String)) (entries : List Entry) : Grouped :=
  entries.foldl (ingest columns) Table.empty

def intoRows (grouped : Grouped) : List Row := grouped.entries.map fun e => mergeRow e.2.1 e.2.2

def groupEntries (columns : Option (List String)) (entries : List Entry) : List Row :=
  intoRows (groupChunk columns entries)

def mergeSlot (slot : Slot) (packed : Option Row) (cells : Row) : Slot :=
  (if packed.isSome then packed else slot.1,slot.2 ++ cells)

def mergeGrouped (left right : Grouped) : Grouped :=
  right.entries.foldl (fun acc e => acc.insert e.1 (mergeSlot (slotAt acc e.1) e.2.1 e.2.2)) left

/- How the entries are cut into chunks and in which brackets the chunks are merged. -/
inductive Split where
  | chunk (entries : List Entry)
  | merge (left right : Split)

def Split.entries : Split → List Entry
  | .chunk entries => entries
  | .merge left right => left.entries ++ right.entries

def Split.grouped (columns : Option (List String)) : Split → Grouped
  | .chunk entries => groupChunk columns entries
  | .merge left right => mergeGrouped (left.grouped columns) (right.grouped columns)

def groupEntriesParallel (columns : Option (List String)) (split : Split) : List Row := intoRows (split.grouped columns)

def joined (first second : Option Slot) : Option Slot :=
  (second.map fun slot => mergeSlot (first.getD (none,[])) slot.1 slot.2).or first

theorem joinedNone (slot) : joined none slot = slot := by
  cases slot with
  | none => rfl
  | some slot =>
    obtain ⟨packed,_⟩ := slot
    cases packed <;> rfl

theorem joinedAssoc (a b c) : joined (joined a b) c = joined a (joined b c) := by
  cases b with
  | none => rw [joinedNone]; rfl
  | some =>
    cases c with
    | none => rfl
    | some c =>
      obtain ⟨packed,_⟩ := c
      cases packed <;> simp [joined,mergeSlot]

def entrySlot (columns : Option (List String)) : EntryKind → Slot
  | .packed bytes => (some (decodePacked columns bytes),[])
  | .cell col val => (none,[(col,.bytes val)])

theorem findIngest (columns acc entry key) : (ingest columns acc entry).find key =
      joined (acc.find key) (if entry.rowId = key then some (entrySlot columns entry.kind) else none) := by
  obtain ⟨_,kind⟩ := entry
  simp only [ingest,Table.findInsert]
  split
  · rename_i same
    subst same
    cases kind <;> simp [joined,entrySlot,mergeSlot,slotAt]
  · rfl

theorem findChunk (columns entries acc key) :
    (entries.foldl (ingest columns) acc).find key = joined (acc.find key) ((groupChunk columns entries).find key) := by
  induction entries generalizing acc with
  | nil => rfl
  | cons entry _ ih =>
    have first := ih (ingest columns .empty entry)
    rw [findIngest,Table.findEmpty,joinedNone] at first
    rw [foldl_cons,ih,findIngest,joinedAssoc,← first]
    rfl

theorem splitGrouped (columns) (split : Split) :
    split.grouped columns = groupChunk columns split.entries := by
  induction split with
  | chunk => rfl
  | merge left right first second =>
    refine tableExt fun key => ?_
    have merged := Table.findInserted (fun slot (more : Slot) => mergeSlot (slot.getD (none,[])) more.1 more.2)
      (right.grouped columns).ascending (left.grouped columns) key
    have whole := findChunk columns right.entries (groupChunk columns left.entries) key
    rw [← first,← second] at whole
    rw [Split.entries,groupChunk,foldl_append,← groupChunk,← first,whole]
    exact merged

theorem parallelIsSerial (columns : Option (List String)) (split : Split) :
    groupEntriesParallel columns split = groupEntries columns split.entries := by
  rw [groupEntriesParallel,splitGrouped,groupEntries]

end NoeDB.ParallelScan
