import NoeDB.Execution
import NoeDB.Fallible
import NoeDB.StorageTables
import NoeDB.Wal
import Mathlib.Data.List.Induction

/-! The store of a log and memtables (durable.rs). A delete removes the key from the active
table only, so that a frozen table that holds the key shows it again. -/
namespace NoeDB.Durable
open ByteString OrderedTable StorageTypes StorageTables Execution Fallible List MemTable Table Option

structure DurableStore where
  wal : Bytes
  active : MemTable
  immutable : List MemTable
  maxMemBytes : Nat

namespace DurableStore

def openNew (maxMemBytes : Nat) : DurableStore := ⟨Wal.header,.new,[],maxMemBytes⟩

variable (store : DurableStore)

def append (entry : LogEntry) : Except Fault DurableStore :=
  (Wal.encode entry).map fun bytes => {store with wal := store.wal ++ bytes}

def maybeRotate : DurableStore :=
  if store.maxMemBytes ≤ store.active.bytes then
    {store with active := .new, immutable := store.immutable ++ [store.active]}
  else store

def put (key value : Bytes) : Except Fault DurableStore := do
  let store ← store.append (.put key value)
  let active ← store.active.put key value
  return maybeRotate {store with active}

def delete (key : Bytes) : Except Fault (DurableStore × Bool) := do
  let store ← store.append (.delete key)
  let (active,removed) ← store.active.delete key
  return (maybeRotate {store with active},removed)

def firstHeld (key : Bytes) : List MemTable → Except Fault (Option Bytes)
  | [] => .ok none
  | table :: rest => do
      match ← table.get key with
      | some value => return some value
      | none => firstHeld key rest

def get (key : Bytes) : Except Fault (Option Bytes) := firstHeld key (store.active :: store.immutable.reverse)

def absorb (merged : Table Bytes Bytes) (table : MemTable) : Table Bytes Bytes :=
  table.iter.foldl (fun t r => t.insert r.1 r.2) merged

def merged : Table Bytes Bytes := (store.immutable ++ [store.active]).foldl absorb .empty

def iter : List Record := store.merged.entries

end DurableStore

inductive Call where
  | put (key value : Bytes)
  | delete (key : Bytes)

/- A run next to the map it should be: what was put and not deleted since, and whether the
last delete told if its key was there. -/
structure Traced where
  store : DurableStore
  live : Table Bytes Bytes
  answered : Bool

def fresh (maxMemBytes : Nat) : Traced := ⟨.openNew maxMemBytes,.empty,true⟩

def step (s : Traced) : Call → Option Traced
  | .put key value =>
      match s.store.put key value with
      | .error _ => none
      | .ok store => some ⟨store,s.live.insert key value,true⟩
  | .delete key =>
      match s.store.delete key with
      | .error _ => none
      | .ok (store,removed) => some ⟨store,s.live.erase key,removed = (s.live.find key).isSome⟩

structure IsMap (s : Traced) : Prop where
  get : ∀ key, key ≠ [] → s.store.get key = .ok (s.live.find key)
  iter : s.store.iter = s.live.entries
  answered : s.answered = true

def Unfrozen (s : Traced) : Call → Prop
  | .put .. => True
  | .delete key => ∀ table ∈ s.store.immutable, table.map.find key = none

instance (s call) : Decidable (Unfrozen s call) := by
  cases call <;> unfold Unfrozen <;> infer_instance

def frozen (store : DurableStore) (key : Bytes) : Option Bytes := store.immutable.reverse.findSome? (·.map.find key)

def shown (store : DurableStore) (key : Bytes) : Option Bytes := (store.active.map.find key).or (frozen store key)

theorem getShown (store : DurableStore) (named : key ≠ []) : store.get key = .ok (shown store key) := by
  have first : ∀ tables, DurableStore.firstHeld key tables = .ok (tables.findSome? (·.map.find key)) := by
    intro tables
    induction tables with
    | nil => rfl
    | cons table _ ih =>
      have held : table.get key = .ok (table.map.find key) := by rw [MemTable.get,MemTable.validateKey,if_neg named]
      simp only [DurableStore.firstHeld,held,bind,Except.bind,List.findSome?_cons]
      cases table.map.find key with
      | none => exact ih
      | some => rfl
  rw [DurableStore.get,first,List.findSome?_cons,shown]
  cases store.active.map.find key <;> rfl

theorem mergedShown (store key) : store.merged.find key = shown store key := by
  have absorbed : ∀ t table, (DurableStore.absorb t table).find key = (table.map.find key).or (t.find key) := by
    intro t table
    have all := findInserted (fun _ value => value) table.map.ascending t key
    rwa [Option.map_id'] at all
  have older : ∀ tables : List MemTable, (tables.foldl DurableStore.absorb .empty).find key =
      tables.reverse.findSome? (·.map.find key) := by
    intro tables
    induction tables using reverseRecOn with
    | nil => rfl
    | append_singleton _ table ih =>
      rw [foldl_append,foldl_cons,foldl_nil,absorbed,ih,reverse_append,reverse_singleton,singleton_append,
        List.findSome?_cons]
      cases table.map.find key <;> rfl
  rw [DurableStore.merged,foldl_append,foldl_cons,foldl_nil,absorbed,older]
  rfl

theorem isMapIff {s : Traced} : IsMap s ↔ (∀ key, shown s.store key = s.live.find key) ∧ s.answered = true := by
  constructor
  · intro map
    refine ⟨fun key => ?_,map.answered⟩
    rw [← mergedShown,ext map.iter]
  · rintro ⟨same,answered⟩
    refine ⟨fun key named => by rw [getShown _ named,same],?_,answered⟩
    have all : s.store.merged = s.live := tableExt fun key => by rw [mergedShown,same]
    exact congrArg entries all

@[simp] theorem rotateShown (store key) : shown store.maybeRotate key = shown store key := by
  unfold DurableStore.maybeRotate
  split
  · have none : new.map.find key = none := rfl
    simp only [shown,frozen,none,none_or,reverse_append,reverse_singleton,singleton_append,List.findSome?_cons]
    cases store.active.map.find key <;> rfl
  · rfl

theorem appendOk {next} (ok : DurableStore.append store entry = .ok next) :
    next.active = store.active ∧ next.immutable = store.immutable := by
  unfold DurableStore.append at ok
  cases encoded : Wal.encode entry with
  | error => rw [encoded] at ok; cases ok
  | ok => rw [encoded] at ok; cases ok; exact ⟨rfl,rfl⟩

theorem putShown {next} (ok : DurableStore.put store key value = .ok next) (other) :
    shown next other = if key = other then some value else shown store other := by
  obtain ⟨_,appended,ok⟩ := boundOk ok
  obtain ⟨_,wrote,ok⟩ := boundOk ok
  obtain ⟨sameActive,sameFrozen⟩ := appendOk appended
  cases ok
  rw [rotateShown]
  unfold put at wrote
  split at wrote
  · cases wrote
  · cases wrote
    simp only [shown,frozen,MemTable.insert,findInsert,sameActive,sameFrozen]
    split <;> rfl

theorem deleteShown {next} (ok : DurableStore.delete store key = .ok (next,removed)) :
    removed = (store.active.map.find key).isSome ∧
      ∀ other, shown next other = if key = other then frozen store key else shown store other := by
  obtain ⟨_,appended,ok⟩ := boundOk ok
  obtain ⟨⟨_,_⟩,wrote,ok⟩ := boundOk ok
  obtain ⟨sameActive,sameFrozen⟩ := appendOk appended
  cases ok
  unfold delete at wrote
  split at wrote
  · cases wrote
  · cases wrote
    refine ⟨by rw [sameActive],fun other => ?_⟩
    rw [rotateShown]
    simp only [shown,frozen,remove,findErase,sameActive,sameFrozen]
    split
    · rename_i same
      rw [same,none_or]
    · rfl

theorem stepIsMapIff {next} (map : IsMap s) (done : step s call = some next) : IsMap next ↔ Unfrozen s call := by
  obtain ⟨same,-⟩ := isMapIff.mp map
  rw [isMapIff]
  cases call with
  | put =>
    simp only [step] at done
    split at done
    · cases done
    · rename_i store ok
      cases done
      refine iff_of_true ⟨fun other => ?_,rfl⟩ trivial
      rw [putShown ok,findInsert,same]
      congr
  | delete key =>
    simp only [step] at done
    split at done
    · cases done
    · rename_i store removed ok
      cases done
      obtain ⟨rfl,deletes⟩ := deleteShown ok
      have cleared : Unfrozen s (.delete key) ↔ frozen s.store key = none := by simp [Unfrozen,frozen]
      rw [cleared]
      constructor
      · rintro ⟨after,-⟩
        have here := after key
        rwa [deletes,if_pos rfl,findErase,if_pos rfl] at here
      · intro none
        refine ⟨fun other => ?_,?_⟩
        · rw [deletes,findErase,same,none]
          congr
        · have before := same key
          rw [shown,none,or_none] at before
          simp [before]

theorem durableIsMapIff (maxMemBytes : Nat) (calls : List Call) {last : Traced}
    (done : run step (fresh maxMemBytes) calls = some last) :
    Always step IsMap (fresh maxMemBytes) calls ↔ Admissible step Unfrozen (fresh maxMemBytes) calls :=
  alwaysIff stepIsMapIff (isMapIff.mpr ⟨fun _ => rfl,rfl⟩) done

theorem deleteBeforeRotation : Always step IsMap (fresh 4) [.put [97] [1],.delete [97],.put [97] [2,3,4],.put [98] [5]] := by
  have runs : (run step (fresh 4) [.put [97] [1],.delete [97],.put [97] [2,3,4],.put [98] [5]]).isSome = true := by
    decide +kernel
  obtain ⟨_,done⟩ := isSome_iff_exists.mp runs
  refine (durableIsMapIff 4 _ done).mpr ?_
  decide +kernel

theorem frozenKeyReturns : ∃ last, run step (fresh 1) [.put [97] [1],.delete [97]] = some last ∧
    last.store.get [97] = .ok (some [1]) ∧ last.answered = false :=
  ⟨_,rfl,by decide +kernel,by decide +kernel⟩

end NoeDB.Durable
