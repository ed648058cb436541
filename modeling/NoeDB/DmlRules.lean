import NoeDB.Dml
import NoeDB.TableRegion

/-! What the storage operations of a statement do outside of transactions, told over the
rows alone: a table of the values under the table keys. Catalog keys may be read and written
in between; what they answer does not matter here. -/
namespace NoeDB.DmlRules
open ByteString OrderedTable StorageTypes Fallible Lsm LsmTree LsmVersions
open Transactions TxnSessions TxnStorage Interaction Platform TableRegion RowPack Dml

abbrev Rows := Table Bytes Bytes

def rowsUnder (start : Bytes) (rows : Rows) : List Record := rows.entries.filter fun e => start.isPrefixOf e.1

def Separated (start : Bytes) : Prop := TableKey start ∧ ∃ front, start = front ++ [0]

def MayScan (start stop : Bytes) : Prop := stop = prefixEnd start ∧ (Reserved start ∨ Separated start)

def MayRead (key : Bytes) : Prop := Reserved key ∨ TableKey key

def ShowsValue (rows : Rows) (key : Bytes) (answer : Option Bytes) : Prop := TableKey key → answer = rows.find key

def ShowsRange (rows : Rows) (start : Bytes) (answer : List Record) : Prop :=
  Separated start → answer = rowsUnder start rows

def Writes (rows : Rows) (key : Bytes) (op : WriteOp) (after : Rows) : Prop :=
  (Reserved key ∧ after = rows) ∨ (TableKey key ∧ after = written rows key op)

def rowRules : Rules storeSignature Rows where
  may
    | .get key,_ => MayRead key
    | .range start stop,_ => MayScan start stop
    | .rangeKeys _ _,_ => True
    | .iter,_ => True
    | .lookUp key,_ => MayRead key
    | .scan start stop,_ => MayScan start stop
    | .put key value,_ => (key ≠ [] ∧ Reserved key) ∨ (TableKey key ∧ value.length < 2^32)
    | .delete key,_ => (key ≠ [] ∧ Reserved key) ∨ TableKey key
    | .rawPut key _,_ => Reserved key
    | .rawDelete key,_ => Reserved key
  does
    | .get key,rows,answer,after => after = rows ∧ ShowsValue rows key answer
    | .range start _,rows,answer,after => after = rows ∧ ShowsRange rows start answer
    | .rangeKeys _ _,rows,_,after => after = rows
    | .iter,rows,_,after => after = rows
    | .lookUp key,rows,answer,after => after = rows ∧ ShowsValue rows key answer
    | .scan start _,rows,answer,after => after = rows ∧ ShowsRange rows start answer
    | .put key value,rows,_,after => Writes rows key (.put value) after
    | .delete key,rows,_,after => Writes rows key .delete after
    | .rawPut _ _,rows,_,after => after = rows
    | .rawDelete _,rows,_,after => after = rows

/- The clock has passed every stored version of a row. -/
def Ahead (engine : Engine) : Prop :=
  ∀ key version, TableKey key → Held engine.tree key version → version.commitTs ≤ engine.manager.oracle

structure Tracks (engine : Engine) (rows : Rows) : Prop where
  region : Region engine.tree
  shows' : Shows engine.tree rows
  ahead : Ahead engine

def clock (engine : Engine) : Nat := engine.manager.oracle.toNat

/- Timestamps from here on are not told apart from text. -/
def clockLimit : Nat := 2^56-1

def StorageFault (fault : EngineFault) : Prop := ∃ cause, fault = ofStorage cause

section
variable {engine : Engine} {rows : Rows}

theorem roomTicking (room : clock engine < clockLimit) : Ticking engine.manager := by
  unfold Ticking
  unfold clock clockLimit at room
  omega

theorem nextEarly (room : clock engine < clockLimit) : Early engine.manager.nextTs := by
  have sum := (nextTsTicking (roomTicking room)).1
  unfold Early
  unfold clock clockLimit at room
  omega

theorem aheadAbove (ahead : Ahead engine) (room : clock engine < clockLimit) (own : TableKey key) :
    Above engine.tree key engine.manager.nextTs := by
  intro version held
  exact lt_of_le_of_lt (ahead key version own held) (tickAbove (roomTicking room))

theorem tracksSame (tracks : Tracks engine rows) (same : SameRows engine.tree next.tree)
    (later : engine.manager.oracle ≤ next.manager.oracle) : Tracks next rows where
  region := sameRegion tracks.region same
  shows' := sameShows tracks.shows' same
  ahead key version own held := le_trans (tracks.ahead key version own ((same.held own).mp held)) later

theorem tickLater (room : clock engine < clockLimit) : engine.manager.oracle ≤ engine.manager.tick.oracle := by
  rw [(nextTsTicking (roomTicking room)).2]
  exact le_of_lt (tickAbove (roomTicking room))

theorem autocommitTracks (tracks : Tracks engine rows) (room : clock engine < clockLimit) {key op}
    (may : (key ≠ [] ∧ Reserved key) ∨ (TableKey key ∧ (op.version 1).value.length < 2^32)) :
    ∃ next after, engine.autocommit key op = (.ok (),next) ∧ Writes rows key op after ∧ Tracks next after := by
  have positive := nextTsPositive (roomTicking room)
  have early := nextEarly room
  have stamp : (op.version engine.manager.nextTs).commitTs = engine.manager.nextTs := by simp
  rcases may with ⟨named,reserved⟩ | ⟨own,fits⟩
  · obtain ⟨tree,done,same⟩ := putVersionReserved tracks.region named reserved (stamp.symm ▸ positive)
    refine ⟨⟨engine.manager.tick,tree⟩,rows,by simp only [Engine.autocommit,done],.inl ⟨reserved,rfl⟩,?_⟩
    exact tracksSame tracks same (tickLater room)
  · have fits' : (op.version engine.manager.nextTs).value.length < 2^32 := by cases op <;> exact fits
    have above := aheadAbove tracks.ahead room own
    obtain ⟨tree,done,region,records⟩ := putVersionShows tracks.region own (stamp.symm ▸ positive)
      (stamp.symm ▸ early) fits' (stamp.symm ▸ above)
    refine ⟨⟨engine.manager.tick,tree⟩,written rows key op,by simp only [Engine.autocommit,done],.inr ⟨own,rfl⟩,?_⟩
    refine ⟨region,addedShows tracks.shows' own above records,fun k version keyed held => ?_⟩
    rcases (records _ ((recordReserved keyed.named).not.mpr keyed.outer)).mp held with new | old
    · rw [(recordInjective new).2,stamp]
      exact le_of_eq (nextTsTicking (roomTicking room)).2.symm
    · exact le_trans (tracks.ahead k version keyed old) (tickLater room)

theorem answers {α : Type} (tracks : Tracks engine rows) (result : Except Fault α) {does : α → Rows → Prop}
    (ok : ∀ a, result = .ok a → does a rows) :
    (∃ e next, (result.mapError ofStorage,engine) = (.error e,next) ∧ StorageFault e) ∨
      ∃ a next after, (result.mapError ofStorage,engine) = (.ok a,next) ∧ does a after ∧ Tracks next after := by
  cases result with
  | error fault => exact .inl ⟨_,_,rfl,fault,rfl⟩
  | ok a => exact .inr ⟨a,_,rows,rfl,ok a rfl,tracks⟩

theorem readShows (tracks : Tracks engine rows) (read : engine.tree.get key = .ok answer) :
    ShowsValue rows key answer := by
  intro own
  rw [showsGet tracks.region tracks.shows' own] at read
  exact (Except.ok.inj read).symm

theorem scanShows [Runtime] (tracks : Tracks engine rows) {start stop answer} (may : MayScan start stop)
    (read : engine.tree.rangeVisible Runtime.sorter start stop .latest = .ok answer) : ShowsRange rows start answer := by
  intro separated
  obtain ⟨own,_,rfl⟩ := separated
  rw [may.1,prefixEnd,showsRange tracks.region tracks.shows' own] at read
  exact (Except.ok.inj read).symm

theorem rawSteps {α : Type} {act : Act α} (tracks : Tracks engine rows)
    (same : ∀ a tree, Returns act engine.tree a tree → SameRows engine.tree tree) :
    (∃ e next, onTree engine act = (.error e,next) ∧ StorageFault e) ∨
      ∃ a next after, onTree engine act = (.ok a,next) ∧ after = rows ∧ Tracks next after := by
  unfold onTree
  cases ran : execute act engine.tree with
  | mk result tree =>
    cases result with
    | error fault => exact .inl ⟨_,_,rfl,fault,rfl⟩
    | ok a => exact .inr ⟨a,_,rows,rfl,rfl,tracksSame tracks (same a tree ran) (le_refl _)⟩

theorem handleRefines [Runtime] : Refines (handle none) rowRules Tracks clock clockLimit StorageFault where
  grows op engine := by
    have tick : engine.manager.tick.oracle.toNat ≤ clock engine+1 := by
      show (engine.manager.oracle+1).toNat ≤ clock engine+1
      exact Nat.mod_le _ _
    cases op with
    | put | delete => exact tick
    | _ => exact Nat.le_succ _
  step op engine rows room tracks may := by
    cases op with
    | get | lookUp => exact answers tracks _ fun _ read => ⟨rfl,readShows tracks read⟩
    | range | scan => exact answers tracks _ fun _ read => ⟨rfl,scanShows tracks may read⟩
    | rangeKeys | iter => exact answers tracks _ fun _ _ => rfl
    | put key value =>
      obtain ⟨next,after,done,writes,kept⟩ := @autocommitTracks _ _ tracks room key (.put value) may
      exact .inr ⟨(),next,after,by simp only [handle,writeKey,done]; rfl,writes,kept⟩
    | delete key =>
      have fits : (key ≠ [] ∧ Reserved key) ∨ (TableKey key ∧ (WriteOp.delete.version 1).value.length < 2^32) :=
        may.imp_right fun own => ⟨own,by decide⟩
      obtain ⟨next,after,done,writes,kept⟩ := autocommitTracks tracks room fits
      exact .inr ⟨(),next,after,by simp only [handle,writeKey,done]; rfl,writes,kept⟩
    | rawPut => exact rawSteps tracks fun _ _ done => putReserved tracks.region may done
    | rawDelete key =>
      have same : ∀ (u : Unit) tree, Returns (do let _ ← LsmTree.delete key) engine.tree u tree →
          SameRows engine.tree tree := by
        intro u _ done
        obtain ⟨_,_,deleted,back⟩ := returnsBind.mp done
        obtain ⟨-,rfl⟩ := returnsPure.mp back
        exact deleteReserved tracks.region may deleted
      exact rawSteps tracks same

end
end NoeDB.DmlRules
