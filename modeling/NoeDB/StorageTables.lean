import NoeDB.OrderedTable
import NoeDB.StorageTypes

/-! The sorted in-memory table (memtable.rs) and the immutable table file written
from it (sstable/). A file is modelled by the records it is read back as. -/
namespace NoeDB.StorageTables
open ByteString OrderedTable StorageTypes List

def entryBytes (key value : Bytes) : Nat := key.length+value.length

def totalBytes (entries : List Record) : Nat := (entries.map fun r => entryBytes r.1 r.2).sum

def heldBytes (key : Bytes) : Option Bytes → Nat
  | none => 0
  | some value => entryBytes key value

theorem totalBytesInsert (asc : Ascending entries) (key value) :
    totalBytes (insertIn key value entries)+heldBytes key (findIn key entries) =
      totalBytes entries+entryBytes key value := by
  induction entries with
  | nil => simp [insertIn,findIn,totalBytes,heldBytes]
  | cons head rest ih =>
    obtain ⟨k,v⟩ := head
    obtain ⟨above,tail⟩ := pairwise_cons.mp asc
    have step := ih tail
    unfold insertIn
    split
    · rename_i below
      have absent : findIn key ((k,v) :: rest) = none :=
        findInAbsent (forall_mem_cons.mpr ⟨ne_of_gt below,fun e later => ne_of_gt (lt_trans below (above e later))⟩)
      simp only [absent,heldBytes,totalBytes,map_cons,sum_cons]
      omega
    · split
      · rename_i same
        subst same
        simp only [findIn,if_true,heldBytes,totalBytes,map_cons,sum_cons]
        omega
      · rename_i differs
        simp only [findIn,if_neg (Ne.symm differs),totalBytes,map_cons,sum_cons] at step ⊢
        omega

theorem totalBytesErase (asc : Ascending entries) (key) :
    totalBytes (eraseIn key entries)+heldBytes key (findIn key entries) = totalBytes entries := by
  induction entries with
  | nil => simp [eraseIn,findIn,totalBytes,heldBytes]
  | cons head rest ih =>
    obtain ⟨k,v⟩ := head
    obtain ⟨above,tail⟩ := pairwise_cons.mp asc
    have step := ih tail
    unfold eraseIn at step ⊢
    by_cases gone : k = key
    · subst gone
      have absent : findIn k rest = none := findInAbsent fun e later => ne_of_gt (above e later)
      rw [filter_cons_of_neg (by simp)]
      simp only [absent,heldBytes] at step
      simp only [findIn,if_true,heldBytes,totalBytes,map_cons,sum_cons] at step ⊢
      omega
    · rw [filter_cons_of_pos (by simpa using gone)]
      simp only [findIn,if_neg gone,totalBytes,map_cons,sum_cons] at step ⊢
      omega

/- The byte count is the sum over the entries, so that no subtraction from it
underflows, and no entry has the empty key. -/
structure MemTable where
  map : Table Bytes Bytes
  bytes : Nat
  counted : bytes = totalBytes map.entries
  named : ∀ r ∈ map.entries, r.1 ≠ []

namespace MemTable

instance : DecidableEq MemTable := fun a b =>
  decidable_of_iff (a.map = b.map) (by
    constructor
    · intro same
      cases a with
      | mk map bytes counted named =>
        cases b with
        | mk other bytes' counted' named' =>
          cases same
          subst counted counted'
          rfl
    · intro same
      rw [same])

def new : MemTable := ⟨.empty,0,rfl,by simp [Table.empty]⟩

def isEmpty (t : MemTable) : Bool := t.map.entries.isEmpty

def validateKey (key : Bytes) : Except Fault Unit :=
  if key = [] then .error (.error (.invalidInput "key must not be empty")) else .ok ()

theorem insertCounted (t : MemTable) (key value) :
    t.bytes-heldBytes key (t.map.find key)+entryBytes key value = totalBytes (t.map.insert key value).entries := by
  have total := totalBytesInsert t.map.ascending key value
  have held := totalBytesErase t.map.ascending key
  have counted := t.counted
  simp only [Table.insert,Table.find]
  omega

theorem insertNamed (t : MemTable) (value) (nonempty : key ≠ [])
    (mem : r ∈ (t.map.insert key value).entries) : r.1 ≠ [] := by
  rcases memInsertIn mem with new | old
  · exact new ▸ nonempty
  · exact t.named r old

def insert (t : MemTable) (key value : Bytes) (nonempty : key ≠ []) : MemTable where
  map := t.map.insert key value
  bytes := t.bytes-heldBytes key (t.map.find key)+entryBytes key value
  counted := insertCounted t key value
  named _ mem := insertNamed t value nonempty mem

def put (t : MemTable) (key value : Bytes) : Except Fault MemTable :=
  if empty : key = [] then .error (.error (.invalidInput "key must not be empty"))
  else .ok (t.insert key value empty)

def get (t : MemTable) (key : Bytes) : Except Fault (Option Bytes) :=
  match validateKey key with
  | .error fault => .error fault
  | .ok _ => .ok (t.map.find key)

def remove (t : MemTable) (key : Bytes) : MemTable where
  map := t.map.erase key
  bytes := t.bytes-heldBytes key (t.map.find key)
  counted := by
    have total := totalBytesErase t.map.ascending key
    have counted := t.counted
    simp only [Table.erase,Table.find]
    omega
  named r mem := t.named r (mem_of_mem_filter mem)

def delete (t : MemTable) (key : Bytes) : Except Fault (MemTable × Bool) :=
  match validateKey key with
  | .error fault => .error fault
  | .ok _ => .ok (t.remove key,(t.map.find key).isSome)

def iter (t : MemTable) : List Record := t.map.entries

/- The ordered map panics where the start of a range lies above its end. -/
def range (t : MemTable) (start stop : Bytes) : Except Fault (List Record) :=
  if stop < start then .error .panicked
  else .ok (t.map.entries.filter fun r => start ≤ r.1 ∧ r.1 < stop)

end MemTable

structure Sst where
  records : Table Bytes Bytes
  named : ∀ r ∈ records.entries, r.1 ≠ []

namespace Sst

instance : DecidableEq Sst := fun a b =>
  decidable_of_iff (a.records = b.records) (by
    cases a
    cases b
    simp)

def writeFromMemtable (t : MemTable) : Sst := ⟨t.map,t.named⟩

def get (sst : Sst) (key : Bytes) : Option Bytes := sst.records.find key

def scan (sst : Sst) : List Record := sst.records.entries

def scanRange (sst : Sst) (start stop : Bytes) : List Record :=
  sst.records.entries.filter fun r => start ≤ r.1 ∧ r.1 < stop

end Sst
end NoeDB.StorageTables
