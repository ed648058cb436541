import NoeDB.StorageTables
import NoeDB.Wal

/-! The contents of a data directory: log segments and CURRENT (wal/segments.rs), the
manifest (manifest.rs) and the table files of both levels. -/
namespace NoeDB.LsmDirectory
open ByteString OrderedTable StorageTypes StorageTables Wal

inductive WalSyncMode where
  | everyAppend
  | onFlush
  deriving DecidableEq, Repr

structure Segment where
  content : Bytes
  synced : Nat
  deriving DecidableEq, Repr

namespace Segment

def new : Segment := ⟨header,header.length⟩

def sync (seg : Segment) : Segment := {seg with synced := seg.content.length}

def append (seg : Segment) (bytes : Bytes) (durable : Bool) : Segment :=
  let written : Segment := {seg with content := seg.content ++ bytes}
  if durable then written.sync else written

def crash (seg : Segment) : Segment := ⟨seg.content.take seg.synced,seg.synced⟩

end Segment

structure ManifestSnapshot where
  level0 : List Nat
  level1 : List Nat
  sequence : Nat
  deriving DecidableEq, Repr

/- A table file is named by its level and number. -/
structure Directory where
  segments : Table Nat Segment
  current : Option Nat
  manifest : Option ManifestSnapshot
  level0Files : Table Nat Sst
  level1Files : Table Nat Sst
  deriving DecidableEq

/- `next_sst_id`: one more than the greatest number in use. -/
def nextSstId (files : Table Nat Sst) : Nat := files.keys.foldl max 0+1

namespace Directory

def empty : Directory := ⟨.empty,none,none,.empty,.empty⟩

/- `Wal::open` creates the file where there is none. -/
def openSegment (dir : Directory) (id : Nat) : Directory :=
  match dir.segments.find id with
  | some _ => dir
  | none => {dir with segments := dir.segments.insert id .new}

def changeSegment (dir : Directory) (id : Nat) (change : Segment → Segment) : Directory :=
  match dir.segments.find id with
  | some seg => {dir with segments := dir.segments.insert id (change seg)}
  | none => dir

def rotate (dir : Directory) (id : Nat) : Directory :=
  {(dir.changeSegment id Segment.sync).openSegment (id+1) with current := some (id+1)}

def deleteSegment (dir : Directory) (id : Nat) : Directory :=
  {dir with segments := dir.segments.erase id}

def commit (dir : Directory) (snapshot : ManifestSnapshot) : Directory :=
  {dir with manifest := some snapshot}

def writeLevel0 (dir : Directory) (id : Nat) (sst : Sst) : Directory :=
  {dir with level0Files := dir.level0Files.insert id sst}

def removeLevel0 (dir : Directory) (id : Nat) : Directory :=
  {dir with level0Files := dir.level0Files.erase id}

def writeLevel1 (dir : Directory) (id : Nat) (sst : Sst) : Directory :=
  {dir with level1Files := dir.level1Files.insert id sst}

def crash (dir : Directory) : Directory :=
  {dir with segments := dir.segments.mapValues Segment.crash}

end Directory

def replayEntry (table : MemTable) (entry : LogEntry) : Except Fault MemTable :=
  match entry.op with
  | .put => table.put entry.key entry.value
  | .delete =>
      match table.delete entry.key with
      | .error fault => .error fault
      | .ok (next,_) => .ok next

def replay (table : MemTable) : List LogEntry → Except Fault MemTable
  | [] => .ok table
  | entry :: rest =>
      match replayEntry table entry with
      | .error fault => .error fault
      | .ok next => replay next rest

theorem replayAppend (table first second) : replay table (first ++ second) = match replay table first with
      | .error fault => .error fault
      | .ok mid => replay mid second := by
  induction first generalizing table with
  | nil => rfl
  | cons entry _ ih =>
    simp only [List.cons_append,replay]
    cases replayEntry table entry with
    | error => rfl
    | ok next => exact ih next

/- `replay_all`: the segments in the order of their numbers. -/
def replayAll (table : MemTable) : List (Nat × Segment) → Except Fault MemTable
  | [] => .ok table
  | (_,seg) :: rest =>
      match readAll seg.content with
      | .error fault => .error fault
      | .ok entries =>
          match replay table entries with
          | .error fault => .error fault
          | .ok next => replayAll next rest

end NoeDB.LsmDirectory
