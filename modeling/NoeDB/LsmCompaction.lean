import NoeDB.LsmLevels
import NoeDB.LsmReads

/-! What compaction keeps. The file it writes holds the greatest value of every key,
so it holds the newest one exactly where no older file has a greater value; point
reads and scans then need the timestamps to tell the records of a key apart. -/
namespace NoeDB.LsmCompaction
open ByteString OrderedTable StorageTypes StorageTables Compaction NewestPerKey Fallible List Version Table
open Lsm LsmTree LsmReads LsmLevels BestSoFar

def newestValue (files : List Sst) (key : Bytes) : Option Bytes := files.reverse.findSome? (·.get key)

def NewestIsGreatest (files : List Sst) : Prop :=
  ∀ f ∈ files, ∀ r ∈ f.scan, ∀ value ∈ newestValue files r.1, r.2 ≤ value

instance (files) : Decidable (NewestIsGreatest files) := by unfold NewestIsGreatest; infer_instance

def versionOf (r : Record) : Option Version := (decodeOrLegacy r.2).toOption

def ToldApart (r q : Record) : Prop :=
  ∀ userKey ∈ [r.1,decodeUserKey r.1], userKey ≠ [] → Concerns userKey q →
    ((versionOf r).map Version.commitTs = (versionOf q).map Version.commitTs ↔ r.1 = q.1)

instance (r q) : Decidable (ToldApart r q) := by unfold ToldApart; infer_instance

def Stamped (files : List Sst) : Prop :=
  ∀ f ∈ files, ∀ r ∈ f.scan, (versionOf r).isSome ∧ ∀ g ∈ files, ∀ q ∈ g.scan, ToldApart r q

instance (files) : Decidable (Stamped files) := by unfold Stamped; infer_instance

def CopiesAgree (files : List Sst) : Prop :=
  ∀ f ∈ files, ∀ r ∈ f.scan, ∀ g ∈ files, ∀ value ∈ g.get r.1, value = r.2

instance (files) : Decidable (CopiesAgree files) := by unfold CopiesAgree; infer_instance

theorem newestHeld {value} (found : newestValue files key = some value) : ∃ f ∈ files, f.get key = some value := by
  obtain ⟨f,mem,held⟩ := exists_of_findSome?_eq_some found
  exact ⟨f,mem_reverse.mp mem,held⟩

theorem heldNewest {value} (file : f ∈ files)
    (held : f.get key = some value) : ∃ newest, newestValue files key = some newest := by
  cases found : newestValue files key with
  | some newest => exact ⟨newest,rfl⟩
  | none =>
    have absent := List.findSome?_eq_none_iff.mp found f (mem_reverse.mpr file)
    simp [held] at absent

theorem mergedIsNewest {out : Sst} (merged : ∀ key value, out.get key = some value ↔ Greatest files key value) :
    (∀ key, out.get key = newestValue files key) ↔ NewestIsGreatest files := by
  constructor
  · intro same f file r mem value found
    have held : out.get r.1 = some value := (same r.1).trans found
    exact ((merged r.1 value).mp held).2 f file r.2 (memIff.mp mem)
  · intro dominant key
    cases found : newestValue files key with
    | some value =>
      exact (merged key value).mpr ⟨newestHeld found,fun f file other held => dominant f file (key,other) (memIff.mpr held) value found⟩
    | none =>
      cases held : out.get key with
      | none => rfl
      | some value =>
        obtain ⟨⟨f,file,here⟩,-⟩ := (merged key value).mp held
        obtain ⟨_,there⟩ := heldNewest file here
        rw [found] at there
        cases there

section
variable {view : ReadView} {userKey : Bytes}

theorem memVersionsIn :
    v ∈ versionsIn userKey records ↔ ∃ r ∈ records, Concerns userKey r ∧ versionOf r = some v := by
  simp [versionsIn,mem_filterMap,versionOf,Option.ite_none_right_eq_some]

theorem memVersionsOf : v ∈ versionsOf userKey files ↔
    ∃ f ∈ files, ∃ r ∈ windowOf userKey f, Concerns userKey r ∧ versionOf r = some v := by
  simp [versionsOf,mem_flatMap,memVersionsIn]

theorem stampedDecodes (stamped : Stamped files) (file : f ∈ files) : Decodes userKey (windowOf userKey f) := by
  intro r mem _
  have decodes := (stamped f file r (memIff.mpr (memWindow.mp mem).1)).1
  obtain ⟨ver,found⟩ := Option.isSome_iff_exists.mp decodes
  refine ⟨ver,?_⟩
  unfold versionOf at found
  cases outcome : decodeOrLegacy r.2 with
  | error => simp [outcome,Except.toOption] at found
  | ok =>
    rw [outcome] at found
    cases Option.some.inj found
    rfl

theorem stampedKey (stamped : Stamped files) (nonempty : userKey ≠ []) (file : f ∈ files) (mem : r ∈ windowOf userKey f)
    (of : Concerns userKey r) (decodes : versionOf r = some v) (file' : g ∈ files)
    (mem' : q ∈ windowOf userKey g) (of' : Concerns userKey q) (decodes' : versionOf q = some w) :
    v.commitTs = w.commitTs ↔ r.1 = q.1 := by
  have inside : userKey ∈ [r.1,decodeUserKey r.1] := by
    rcases of with same | same <;> simp [same]
  have rule := (stamped f file r (memIff.mpr (memWindow.mp mem).1)).2 g file' q
    (memIff.mpr (memWindow.mp mem').1) userKey inside nonempty of'
  simpa [decodes,decodes'] using rule

theorem bestIsNewest (stamped : Stamped files) (nonempty : userKey ≠ [])
    (found : bestOf (visible view) commitTs (versionsOf userKey files) = some best) :
    ∃ r, files.findSome? (·.get r.1) = some r.2 ∧ userKey ≤ r.1 ∧ r.1 < userKeyPrefixEnd userKey ∧
      Concerns userKey r ∧ versionOf r = some best := by
  induction files generalizing best with
  | nil => cases found
  | cons f rest ih =>
    have here : ∀ {v}, bestOf (visible view) commitTs (versionsIn userKey (windowOf userKey f)) = some v →
        ∃ r, (f :: rest).findSome? (·.get r.1) = some r.2 ∧ userKey ≤ r.1 ∧ r.1 < userKeyPrefixEnd userKey ∧
          Concerns userKey r ∧ versionOf r = some v := by
      intro v first
      obtain ⟨r,mem,of,decodes⟩ := memVersionsIn.mp (bestOfSome first).mem
      obtain ⟨held,low,high⟩ := memWindow.mp mem
      exact ⟨r,by simp [held],low,high,of,decodes⟩
    have split : versionsOf userKey (f :: rest) =
        versionsIn userKey (windowOf userKey f) ++ versionsOf userKey rest := rfl
    rw [split,bestOfAppend] at found
    cases later : bestOf (visible view) commitTs (versionsOf userKey rest) with
    | none =>
      rw [later,betterNone] at found
      exact here found
    | some b =>
      have tail : Stamped rest := fun g file r mem => ⟨(stamped g (mem_cons_of_mem _ file) r mem).1,
        fun h file' => (stamped g (mem_cons_of_mem _ file) r mem).2 h (mem_cons_of_mem _ file')⟩
      obtain ⟨r,newest,low,high,of,decodes⟩ := ih tail later
      -- A copy of the record in the newer file would have the same timestamp.
      have copy : ∀ value, f.get r.1 = some value → ∃ w ∈ versionsIn userKey (windowOf userKey f),
          w.commitTs = b.commitTs := by
        intro value held
        have mem : (r.1,value) ∈ windowOf userKey f := memWindow.mpr ⟨held,low,high⟩
        obtain ⟨g,file,held'⟩ := exists_of_findSome?_eq_some newest
        obtain ⟨w,decodes'⟩ := Option.isSome_iff_exists.mp (stamped f mem_cons_self (r.1,value) (memIff.mpr held)).1
        refine ⟨w,memVersionsIn.mpr ⟨_,mem,of,decodes'⟩,?_⟩
        exact (stampedKey stamped nonempty mem_cons_self mem of decodes'
          (mem_cons_of_mem _ file) (memWindow.mpr ⟨held',low,high⟩) of decodes).mpr rfl
      have admitted := (bestOfSome later).admits
      have absent : ∀ c, bestOf (visible view) commitTs (versionsIn userKey (windowOf userKey f)) = c →
          (∀ v ∈ c, v.commitTs < b.commitTs) → f.get r.1 = none := by
        intro c first below
        cases held : f.get r.1 with
        | none => rfl
        | some value =>
          obtain ⟨w,mem,same⟩ := copy value held
          have seen : visible view w = true := by simpa only [visible,ReadView.isVisible,same] using admitted
          cases c with
          | none => simp [bestOfNone.mp first w mem] at seen
          | some v =>
            have most := (bestOfSome first).top w mem seen
            exact absurd (same ▸ most) (not_le.mpr (below v rfl))
      rw [later] at found
      cases first : bestOf (visible view) commitTs (versionsIn userKey (windowOf userKey f)) with
      | none =>
        rw [first,noneBetter] at found
        cases Option.some.inj found
        have gone := absent none first fun v none => nomatch none
        exact ⟨r,by simp [gone,newest],low,high,of,decodes⟩
      | some v =>
        rw [first] at found
        rcases lt_or_ge v.commitTs b.commitTs with less | most
        · rw [betterLt less] at found
          cases Option.some.inj found
          have gone := absent (some v) first fun w same => Option.some.inj same ▸ less
          exact ⟨r,by simp [gone,newest],low,high,of,decodes⟩
        · rw [betterLe most] at found
          exact here (first.trans found)

theorem mergedBest (stamped : Stamped files) (nonempty : userKey ≠ [])
    (merged : ∀ key, out.get key = newestValue files key) :
    bestOf (visible view) commitTs (versionsOf userKey files.reverse) =
      bestOf (visible view) commitTs (versionsOf userKey [out]) := by
  have reversed : Stamped files.reverse := fun f file r mem =>
    ⟨(stamped f (mem_reverse.mp file) r mem).1,
      fun g file' => (stamped f (mem_reverse.mp file) r mem).2 g (mem_reverse.mp file')⟩
  have inside : ∀ {r v}, r ∈ windowOf userKey out → Concerns userKey r → versionOf r = some v →
      ∃ f ∈ files.reverse, r ∈ windowOf userKey f := by
    intro r v mem of decodes
    obtain ⟨held,low,high⟩ := memWindow.mp mem
    obtain ⟨f,file,there⟩ := newestHeld ((merged r.1).symm.trans held)
    exact ⟨f,mem_reverse.mpr file,memWindow.mpr ⟨there,low,high⟩⟩
  have subset : ∀ v ∈ versionsOf userKey [out], v ∈ versionsOf userKey files.reverse := by
    intro v mem
    obtain ⟨g,one,r,window,of,decodes⟩ := memVersionsOf.mp mem
    rw [mem_singleton.mp one] at window
    obtain ⟨f,file,there⟩ := inside window of decodes
    exact memVersionsOf.mpr ⟨f,file,r,there,of,decodes⟩
  cases found : bestOf (visible view) commitTs (versionsOf userKey files.reverse) with
  | none =>
    refine (bestOfNone.mpr fun v mem => ?_).symm
    exact bestOfNone.mp found v (subset v mem)
  | some best =>
    obtain ⟨r,newest,low,high,of,decodes⟩ := bestIsNewest reversed nonempty found
    have window : r ∈ windowOf userKey out := memWindow.mpr ⟨(merged r.1).trans newest,low,high⟩
    have kept : best ∈ versionsOf userKey [out] := memVersionsOf.mpr ⟨out,mem_singleton.mpr rfl,r,window,of,decodes⟩
    have top := bestOfSome found
    cases after : bestOf (visible view) commitTs (versionsOf userKey [out]) with
    | none =>
      have hidden := bestOfNone.mp after best kept
      rw [top.admits] at hidden
      cases hidden
    | some other =>
      have top' := bestOfSome after
      obtain ⟨g,one,q,window',of',decodes'⟩ := memVersionsOf.mp top'.mem
      rw [mem_singleton.mp one] at window'
      have same : best.commitTs = other.commitTs :=
        le_antisymm (top'.top best kept top.admits) (top.top other (subset other top'.mem) top'.admits)
      obtain ⟨f,file,there⟩ := inside window of decodes
      obtain ⟨_,file',there'⟩ := inside window' of' decodes'
      have key := (stampedKey reversed nonempty file there of decodes file' there' of' decodes').mp same
      have value : some r.2 = some q.2 := by
        rw [← (memWindow.mp window).1,← (memWindow.mp window').1,key]
      rw [versionOf,Option.some.inj value] at decodes
      exact decodes.symm.trans decodes'

theorem mergedConsiders (stamped : Stamped files) (nonempty : userKey ≠ [])
    (merged : ∀ key, out.get key = newestValue files key) (best) :
    considerFiles view userKey best (files.reverse.map some) = considerFiles view userKey best [some out] := by
  have before : considerFiles view userKey best (files.reverse.map some) = _ :=
    considerFilesDecode (fun f file => stampedDecodes stamped (mem_reverse.mp file)) best
  have decodes : ∀ f ∈ [out], Decodes userKey (windowOf userKey f) := by
    intro f one r mem of
    rw [mem_singleton.mp one] at mem
    obtain ⟨held,low,high⟩ := memWindow.mp mem
    obtain ⟨g,file,there⟩ := newestHeld ((merged r.1).symm.trans held)
    exact stampedDecodes stamped file r (memWindow.mpr ⟨there,low,high⟩) of
  have after : considerFiles view userKey best [some out] = _ := considerFilesDecode decodes best
  rw [before,after,bestFromBetter,bestFromBetter,mergedBest stamped nonempty merged]

end

section
variable {tree : LsmTree} {l0 l1 : List Sst}

theorem compactedGet (levels : Levels tree l0 l1) (stamped : Stamped l0)
    (merged : ∀ key, out.get key = newestValue l0 key) (key) : (compacted tree out).get key = tree.get key := by
  have after := compactedLevels levels out
  have newFiles : (compacted tree out).readers0.reverse ++ (compacted tree out).readers1.reverse =
      [some out] ++ tree.readers1.reverse := by
    simp [after.level0,after.level1,levels.level1]
  have oldFiles : tree.readers0.reverse ++ tree.readers1.reverse = l0.reverse.map some ++ tree.readers1.reverse := by
    simp [levels.level0]
  have active : (compacted tree out).active = tree.active := rfl
  by_cases empty : key = []
  · simp [LsmTree.get,MemTable.get,MemTable.validateKey,empty]
  have versions : (compacted tree out).findVisibleVersion key .latest = tree.findVisibleVersion key .latest := by
    simp only [findVisibleVersion,active,newFiles,oldFiles,considerFilesAppend, mergedConsiders stamped empty merged]
  have copies : firstCopy key ([some out] ++ tree.readers1.reverse) =
      firstCopy key (l0.reverse.map some ++ tree.readers1.reverse) := by
    rw [firstCopySome]
    simp only [cons_append,nil_append,firstCopy]
    have same := merged key
    unfold newestValue at same
    cases found : l0.reverse.findSome? (·.get key) with
    | none | some => simp only [same,found]
  simp only [LsmTree.get,getStored,active,versions,newFiles,oldFiles,copies]

theorem compactedScan (levels : Levels tree l0 l1) (agree : CopiesAgree l0)
    (merged : ∀ key value, out.get key = some value ↔ Greatest l0 key value) (clear : Unambiguous tree)
    (sorter : Sorter) (view bounds) :
    mergeVisibleAt sorter (compacted tree out) view bounds = mergeVisibleAt sorter tree view bounds := by
  have after := compactedLevels levels out
  refine scanCongr clear rfl fun r => ?_
  have union : out.get r.1 = some r.2 ↔ ∃ f ∈ l0, f.get r.1 = some r.2 := by
    rw [merged]
    constructor
    · exact And.left
    · rintro ⟨f,file,held⟩
      refine ⟨⟨f,file,held⟩,fun g file' other held' => ?_⟩
      exact le_of_eq (agree f file r (memIff.mpr held) g file' other held')
  simp only [memStored,after.level0,after.level1,levels.level0,levels.level1,map_append,
    mem_append,mem_map,Option.some.injEq,map_nil,append_nil,exists_eq_right,
    mem_singleton,map_cons]
  constructor
  · rintro ⟨sst,file | rfl,held,covered⟩
    · exact ⟨sst,.inl file,held,covered⟩
    · obtain ⟨f,file,there⟩ := union.mp held
      exact ⟨f,.inr file,there,covered⟩
  · rintro ⟨sst,file | file,held,covered⟩
    · exact ⟨sst,.inl file,held,covered⟩
    · exact ⟨out,.inr rfl,union.mpr ⟨sst,file,held⟩,covered⟩

theorem compactionKeepsNewest (levels : Levels tree l0 l1) (some' : l0 ≠ []) :
    ∃ out after, Returns runCompaction tree () after ∧ Levels after [] (l1 ++ [out]) ∧
      ((∀ key, out.get key = newestValue l0 key) ↔ NewestIsGreatest l0) ∧
      (NewestIsGreatest l0 → Stamped l0 → ∀ key, after.get key = tree.get key) ∧
      (CopiesAgree l0 → Unambiguous tree → ∀ sorter start stop view,
        after.rangeVisible sorter start stop view = tree.rangeVisible sorter start stop view) := by
  obtain ⟨out,done,merged⟩ := compactGreatest some'
  have newest := mergedIsNewest merged
  rw [← levels.level0] at done
  refine ⟨out,compacted tree out,runCompactionReturns.mpr ⟨out,done,rfl⟩,compactedLevels levels out,newest,?_,?_⟩
  · intro dominant stamped
    exact compactedGet levels stamped (newest.mpr dominant)
  · intro agree clear sorter start stop view
    exact compactedScan levels agree merged clear sorter view (some (start,stop))

end

def flushing : LsmConfig := ⟨1,100,.everyAppend,1,.default⟩

def threeFiles : LsmTree := (execute (do put [97] [1]; put [98] [2]; put [97] [1]) (fresh flushing)).2

def threeSsts : List Sst := threeFiles.readers0.reduceOption

theorem compactionKeepsThreeFiles : ∃ (out : Sst) (after : LsmTree), Returns runCompaction threeFiles () after ∧
      (∀ key, out.get key = newestValue threeSsts key) ∧ (∀ key, after.get key = threeFiles.get key) ∧
      ∀ sorter start stop view,
        after.rangeVisible sorter start stop view = threeFiles.rangeVisible sorter start stop view := by
  have levels : Levels threeFiles threeSsts [] := ⟨by decide +kernel,by decide +kernel⟩
  have some' : threeSsts ≠ [] := by decide +kernel
  have greatest : NewestIsGreatest threeSsts := by decide +kernel
  have stamped : Stamped threeSsts := by decide +kernel
  have agree : CopiesAgree threeSsts := by decide +kernel
  have clear : Unambiguous threeFiles := by decide +kernel
  obtain ⟨out,after,done,-,newest,reads,scans⟩ := compactionKeepsNewest levels some'
  exact ⟨out,after,done,newest.mpr greatest,reads greatest stamped,scans agree clear⟩

def overwritten : LsmTree := (execute (do put [97] [122]; put [97] [98]) (fresh flushing)).2

theorem greaterValueSurvives : newestValue overwritten.readers0.reduceOption [97] = some [98] ∧
      overwritten.get [97] = .ok (some [98]) ∧ (execute runCompaction overwritten).1 = .ok () ∧
      (execute runCompaction overwritten).2.readers1.map (·.bind (·.get [97])) = [some [122]] ∧
      (execute runCompaction overwritten).2.get [97] = .ok (some [122]) := by
  decide +kernel

end NoeDB.LsmCompaction
