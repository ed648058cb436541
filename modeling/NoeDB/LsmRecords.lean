import NoeDB.LsmCalls
import NoeDB.LsmCompaction

/-! The records of a tree as a set: what a logged write adds to it and takes away, and
that flush and compaction only move records between tables and files. -/
namespace NoeDB.LsmRecords
open ByteString OrderedTable StorageTypes StorageTables LsmDirectory Compaction List Table
open Lsm LsmTree LsmLevels LsmReads LsmCalls

structure Copied (tree : LsmTree) : Prop where
  levels : ∃ l0 l1, Levels tree l0 l1
  agree : ∀ r ∈ scanned tree, ∀ q ∈ scanned tree, r.1 = q.1 → r.2 = q.2

variable {tree next : LsmTree}

structure Moved (tree next : LsmTree) : Prop where
  levels : ∃ l0 l1, Levels next l0 l1
  records : ∀ r, r ∈ scanned next ↔ r ∈ scanned tree
  active : ∀ r ∈ next.active.iter, r ∈ tree.active.iter

structure Keeps (area : Bytes → Prop) (tree next : LsmTree) : Prop where
  levels : ∃ l0 l1, Levels next l0 l1
  records : ∀ r, area r.1 → (r ∈ scanned next ↔ r ∈ scanned tree)
  fewer : ∀ r ∈ scanned next, r ∈ scanned tree
  active : ∀ r ∈ next.active.iter, r ∈ tree.active.iter

theorem memScanned {l0 l1} (levels : Levels tree l0 l1) {r} : r ∈ scanned tree ↔
    (∃ sst ∈ l1 ++ l0, sst.get r.1 = some r.2) ∨ r ∈ tree.active.iter := by
  have reader : ∀ sst, some sst ∈ tree.readers1 ++ tree.readers0 ↔ sst ∈ l1 ++ l0 := by
    intro _
    rw [levels.level0,levels.level1,← map_append,mem_map]
    simp
  simp [scanned,mem_append (s := tree.storedRecords none),memStored,reader,Covered,and_true]

theorem copyAbsent (present : ∃ l0 l1, Levels tree l0 l1) (free : ∀ r ∈ scanned tree, r.1 ≠ key) :
    firstCopy key (tree.readers0.reverse ++ tree.readers1.reverse) = .ok none := by
  obtain ⟨l0,l1,levels⟩ := present
  have files : tree.readers0.reverse ++ tree.readers1.reverse = (l0.reverse ++ l1.reverse).map some ++ [] := by
    simp [levels.level0,levels.level1]
  rw [files,firstCopySome]
  cases found : (l0.reverse ++ l1.reverse).findSome? (·.get key) with
  | none => rfl
  | some value =>
    obtain ⟨sst,mem,held⟩ := exists_of_findSome?_eq_some found
    have file : sst ∈ l1 ++ l0 := by simpa [or_comm] using mem
    exact absurd rfl (free (key,value) ((memScanned levels).mpr (.inl ⟨sst,file,held⟩)))

section
variable {area : Bytes → Prop}

def AgreesIn (area : Bytes → Prop) (tree : LsmTree) : Prop :=
  ∀ r ∈ scanned tree, ∀ q ∈ scanned tree, area r.1 → r.1 = q.1 → r.2 = q.2

theorem flushedKeeps (present : ∃ l0 l1, Levels tree l0 l1) : Keeps area tree (flushed tree) := by
  obtain ⟨_,_,levels⟩ := present
  have after := flushedLevels levels
  have records : ∀ r, r ∈ scanned (flushed tree) ↔ r ∈ scanned tree := by
    intro r
    rw [memScanned after,memScanned levels]
    have own : (Sst.writeFromMemtable tree.active).get r.1 = some r.2 ↔ r ∈ tree.active.iter := memIff.symm
    have empty : r ∉ (flushed tree).active.iter := not_mem_nil
    simp [← append_assoc,mem_append,or_and_right,exists_or,own, empty,or_false]
  refine ⟨⟨_,_,after⟩,fun r _ => records r,fun r => (records r).mp,fun r mem => ?_⟩
  cases mem

theorem compactedKeeps (present : ∃ l0 l1, Levels tree l0 l1) (agree : AgreesIn area tree) {merged}
    (done : compactLevel0ToL1 tree.readers0 = .ok merged) : Keeps area tree (compacted tree merged) := by
  obtain ⟨l0,_,levels⟩ := present
  have after := compactedLevels levels merged
  have nonempty : l0 ≠ [] := by
    rintro rfl
    rw [levels.level0] at done
    cases done
  obtain ⟨_,written,greatest⟩ := compactGreatest nonempty
  rw [levels.level0,written] at done
  cases done
  have active : (compacted tree merged).active = tree.active := rfl
  have file {r : Record} (held : merged.get r.1 = some r.2) : ∃ sst ∈ l0, sst.get r.1 = some r.2 :=
    ((greatest _ _).mp held).1
  have union {r : Record} (inside : area r.1) : merged.get r.1 = some r.2 ↔ ∃ sst ∈ l0, sst.get r.1 = some r.2 := by
    refine ⟨file,fun ⟨sst,mem,held⟩ => (greatest _ _).mpr ⟨⟨sst,mem,held⟩,fun other mem' value held' => ?_⟩⟩
    have stored := (memScanned levels).mpr (.inl ⟨sst,mem_append_right _ mem,held⟩)
    have stored' := (@memScanned _ _ _ levels (r.1,value)).mpr (.inl ⟨other,mem_append_right _ mem',held'⟩)
    exact le_of_eq (agree _ stored _ stored' inside rfl).symm
  refine ⟨⟨_,_,after⟩,fun r inside => ?_,fun r mem => ?_,fun r mem => mem⟩
  · rw [memScanned after,memScanned levels]
    simp [append_nil,mem_append,or_and_right,exists_or,union inside, active]
  · refine (memScanned levels).mpr ?_
    rcases (memScanned after).mp mem with ⟨sst,there,held⟩ | own
    · rcases mem_append.mp (append_nil _ ▸ there) with old | new
      · exact .inl ⟨sst,mem_append_left _ old,held⟩
      · rw [mem_singleton.mp new] at held
        obtain ⟨first,mem',held'⟩ := file held
        exact .inl ⟨first,mem_append_right _ mem',held'⟩
    · exact .inr own

theorem Keeps.refl (present : ∃ l0 l1, Levels tree l0 l1) : Keeps area tree tree :=
  ⟨present,fun _ _ => Iff.rfl,fun _ mem => mem,fun _ mem => mem⟩

theorem Keeps.trans (first : Keeps area tree next) (second : Keeps area next last) : Keeps area tree last :=
  ⟨second.levels,fun r inside => (second.records r inside).trans (first.records r inside),
    fun r mem => first.fewer r (second.fewer r mem),fun r mem => first.active r (second.active r mem)⟩

theorem settlesKeeps (present : ∃ l0 l1, Levels tree l0 l1) (agree : AgreesIn area tree) (settles : Settles tree next) :
    Keeps area tree next := by
  have flush : Keeps area tree (afterFlush tree) := by
    unfold afterFlush
    split
    · exact .refl present
    · exact flushedKeeps present
  cases settles with
  | room => exact .refl present
  | flushed => exact flush
  | compacted _ _ done =>
    exact flush.trans (compactedKeeps flush.levels (fun r left q right =>
    agree r (flush.fewer r left) q (flush.fewer q right)) done)

end

theorem settlesMoved (copied : Copied tree) (settles : Settles tree next) : Moved tree next := by
  have agree : AgreesIn (fun _ => True) tree := fun r left q right _ => copied.agree r left q right
  have keeps := settlesKeeps copied.levels agree settles
  exact ⟨keeps.levels,fun r => keeps.records r trivial,keeps.active⟩

theorem wroteLevels (wrote : Wrote tree entry next) :
    next.readers0 = tree.readers0 ∧ next.readers1 = tree.readers1 := by
  obtain ⟨_,-,logged⟩ := wrote.logged
  exact frameReaders wrote.frame logged

theorem wroteStored (wrote : Wrote tree entry next) : next.storedRecords none = tree.storedRecords none := by
  obtain ⟨same0,same1⟩ := wroteLevels wrote
  simp [storedRecords,same0,same1]

theorem wrotePut (wrote : Wrote tree (.put key value) next) : key ≠ [] ∧
    ∀ r, r ∈ next.active.iter ↔ r = (key,value) ∨ r ∈ tree.active.iter ∧ r.1 ≠ key := by
  have applied : tree.active.put key value = .ok next.active := wrote.applied
  unfold MemTable.put at applied
  split at applied
  · cases applied
  rename_i named
  refine ⟨named,fun r => ?_⟩
  rw [← Except.ok.inj applied]
  have held : r ∈ (tree.active.insert key value named).iter ↔
      (tree.active.map.insert key value).find r.1 = some r.2 := memIff
  have old : r ∈ tree.active.iter ↔ tree.active.map.find r.1 = some r.2 := memIff
  rw [held,old,findInsert]
  obtain ⟨k,v⟩ := r
  by_cases same : key = k
  · simp [same,eq_comm]
  · simp [same,Ne.symm same]

theorem wroteDelete (wrote : Wrote tree (.delete key) next) : key ≠ [] ∧
    ∀ r, r ∈ next.active.iter ↔ r ∈ tree.active.iter ∧ r.1 ≠ key := by
  have named : key ≠ [] := (Wal.acceptedIff.mp wrote.checked).1
  have applied : tree.active.remove key = next.active := by
    simpa [replayEntry,LogEntry.delete,MemTable.delete,MemTable.validateKey,named] using wrote.applied
  refine ⟨named,fun r => ?_⟩
  rw [← applied]
  simp [MemTable.iter,MemTable.remove,erase,eraseIn]

theorem memPut (wrote : Wrote tree (.put key value) next) : r ∈ scanned next ↔
    r ∈ tree.storedRecords none ∨ r = (key,value) ∨ r ∈ tree.active.iter ∧ r.1 ≠ key := by
  rw [scanned,mem_append,wroteStored wrote,(wrotePut wrote).2]

theorem memDelete (wrote : Wrote tree (.delete key) next) : r ∈ scanned next ↔
    r ∈ tree.storedRecords none ∨ r ∈ tree.active.iter ∧ r.1 ≠ key := by
  rw [scanned,mem_append,wroteStored wrote,(wroteDelete wrote).2]

theorem levelsKept (copied : Copied tree) (wrote : Wrote tree entry next) : ∃ l0 l1, Levels next l0 l1 := by
  obtain ⟨l0,l1,levels⟩ := copied.levels
  obtain ⟨same0,same1⟩ := wroteLevels wrote
  exact ⟨l0,l1,same0 ▸ levels.level0,same1 ▸ levels.level1⟩

theorem putMem (wrote : Wrote tree (.put key value) next) (mem : r ∈ scanned next) :
    r = (key,value) ∨ r ∈ scanned tree := by
  rcases (memPut wrote).mp mem with file | new | ⟨old,-⟩
  · exact .inr (mem_append_left _ file)
  · exact .inl new
  · exact .inr (mem_append_right _ old)

theorem putKeeps (wrote : Wrote tree (.put key value) next) (mem : r ∈ scanned tree)
    (other : r.1 ≠ key) : r ∈ scanned next := by
  rcases mem_append.mp mem with file | old
  · exact (memPut wrote).mpr (.inl file)
  · exact (memPut wrote).mpr (.inr (.inr ⟨old,other⟩))

theorem putAgrees (copied : Copied tree)
    (same : ∀ r ∈ tree.storedRecords none, r.1 = key → r.2 = value) (wrote : Wrote tree (.put key value) next) :
    ∀ r ∈ scanned next, ∀ q ∈ scanned next, r.1 = q.1 → r.2 = q.2 := by
  have own : ∀ r ∈ scanned next, r.1 = key → r.2 = value := by
    intro r mem keyed
    rcases (memPut wrote).mp mem with file | rfl | ⟨-,other⟩
    · exact same r file keyed
    · rfl
    · exact absurd keyed other
  intro r left q right keys
  by_cases keyed : r.1 = key
  · rw [own r left keyed,own q right (keys ▸ keyed)]
  · have before : ∀ {p}, p ∈ scanned next → p.1 = r.1 → p ∈ scanned tree := by
      intro p mem shared
      refine (putMem wrote mem).resolve_left fun new => keyed ?_
      rw [← shared,new]
    exact copied.agree r (before left rfl) q (before right keys.symm) keys

end NoeDB.LsmRecords
