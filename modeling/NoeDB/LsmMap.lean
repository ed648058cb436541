import NoeDB.LsmRecords

/-! The engine as a map from keys to values: what put, put_batch and delete mean, and
the runs in which the stored records keep to it. -/
namespace NoeDB.LsmMap
open ByteString OrderedTable StorageTypes StorageTables NewestPerKey Fallible List Option Function Version Execution
open Lsm LsmTree LsmLevels LsmReads LsmCalls LsmCompaction LsmRecords BestSoFar

abbrev Contents := Bytes → Option Bytes

def Contents.after (map : Contents) : Call → Contents
  | .put key value => Function.update map key (some value)
  | .putBatch entries => entries.foldl (fun map e => Function.update map e.1 (some e.2)) map
  | .delete key => Function.update map key none
  | .putVersion _ _ => map
  | .sync => map
  | .reopen => map

def contentsOf (calls : List Call) : Contents := calls.foldl Contents.after fun _ => none

def grave (key : Bytes) : Record := (encodeInternalKey key 2,versionBytes (.tombstone 2))

@[mk_iff]
structure Unopposed (tree : LsmTree) (key value : Bytes) : Prop where
  raw : ¬Marked value
  kept : grave key ∉ scanned tree
  free : ∀ r ∈ scanned tree, r.1 = key → ¬Marked r.2
  same : ∀ r ∈ tree.storedRecords none, r.1 = key → r.2 = value

instance (tree key value) : Decidable (Unopposed tree key value) := decidable_of_iff' _ (unopposed_iff tree key value)

@[mk_iff]
structure Deletable (tree : LsmTree) (key : Bytes) : Prop where
  free : ∀ r ∈ scanned tree, r.1 = key → ¬Marked r.2
  place : ∀ r ∈ scanned tree, r.1 = (grave key).1 → Marked r.2

instance (tree key) : Decidable (Deletable tree key) := decidable_of_iff' _ (deletable_iff tree key)

def Plain (tree : LsmTree) (call : Call) : Prop :=
  FileFits call ∧ match call with
    | .put key value => Unopposed tree key value
    | .putBatch entries => ∀ e ∈ entries, Unopposed tree e.1 e.2
    | .delete key => Deletable tree key
    | .sync => True
    | .putVersion _ _ => False
    | .reopen => False

instance (tree) : (call : Call) → Decidable (Plain tree call)
  | .put .. | .putBatch _ | .delete _ | .sync | .putVersion .. | .reopen => inferInstanceAs (Decidable (_ ∧ _))

def Readable (tree : LsmTree) (key : Bytes) : Prop :=
  ¬userKeyPrefixEnd key < key ∧ ∀ r ∈ scanned tree, decodeUserKey r.1 = key → Marked r.2

instance (tree key) : Decidable (Readable tree key) := by unfold Readable; infer_instance

def Holds (tree : LsmTree) (key value : Bytes) : Prop :=
  (key,value) ∈ scanned tree ∧ ¬Marked value ∧ grave key ∉ scanned tree

structure Consistent (tree : LsmTree) : Prop where
  levels : ∃ l0 l1, Levels tree l0 l1
  shape : ∀ r ∈ scanned tree, ¬Marked r.2 ∨ ∃ key, key ≠ [] ∧ r = grave key
  agree : ∀ r ∈ scanned tree, ∀ q ∈ scanned tree, r.1 = q.1 → r.2 = q.2
  alive : ∀ r ∈ tree.active.iter, ¬Marked r.2 → grave r.1 ∉ scanned tree

def Represents (tree : LsmTree) (map : Contents) : Prop :=
  ∀ key value, map key = some value ↔ Holds tree key value

theorem graveMarked (key) : Marked (grave key).2 := markedVersion _

theorem graveInjective (same : grave key = grave other) : key = other := by
  have keys := congrArg (fun r => decodeUserKey r.1) same
  simpa [grave] using keys

theorem graveVersion (key) : versionOf (grave key) = some (.tombstone 2) := by
  have marked := graveMarked key
  simp only [versionOf,decodeOrLegacy,if_pos marked]
  rfl

theorem rawVersion (raw : ¬Marked r.2) : versionOf r = some (.put 1 r.2) := by
  simp only [versionOf,decodeOrLegacy,if_neg raw]
  rfl

theorem graveRead (named : key ≠ []) : readAs (grave key) = some (key,2,true,[]) := by
  have long : 8 < (grave key).1.length := by
    have positive := length_pos_of_ne_nil named
    simp only [grave,internalKeyLength]
    omega
  have parts : decodeVersionRef (grave key).2 = some (2,true,[]) :=
    decodeRefIff.mpr (show decodeVersion (versionBytes (.tombstone 2)) = .ok ⟨2,[],true⟩ from decodeEncoded (by decide))
  rw [readAs,if_pos ⟨graveMarked key,long⟩,parts]
  simp [grave]

theorem rawRead (raw : ¬Marked r.2) : readAs r = some (r.1,1,false,r.2) := if_neg fun both => raw both.1

section
variable {tree : LsmTree} (consistent : Consistent tree) {key : Bytes}
include consistent

theorem storedVersion (mem : r ∈ scanned tree) :
    versionOf r = some (if Marked r.2 then .tombstone 2 else .put 1 r.2) := by
  rcases consistent.shape r mem with raw | ⟨key,-,rfl⟩
  · rw [if_neg raw,rawVersion raw]
  · rw [if_pos (graveMarked key),graveVersion]

theorem foundBest (searchable : ¬userKeyPrefixEnd key < key) : tree.findVisibleVersion key .latest =
    .ok (bestOf (visible .latest) commitTs (versionsIn key (pointRecords tree key))) := by
  rw [findVisibleFlat,if_neg searchable]
  refine considerRecordsDecode (fun r mem of => ?_) none
  have version := storedVersion consistent (memPoint.mp mem).1
  unfold versionOf at version
  cases decoded : decodeOrLegacy r.2 with
  | error => simp [decoded,Except.toOption] at version
  | ok ver => exact ⟨ver,rfl⟩

inductive Finding (tree : LsmTree) (key : Bytes) : Option Version → Prop where
  | hidden {r} (mem : r ∈ scanned tree) (of : Concerns key r) (marked : Marked r.2) :
      Finding tree key (some (.tombstone 2))
  | shown {r} (mem : r ∈ scanned tree) (of : Concerns key r)
      (raw : ∀ q ∈ scanned tree, Concerns key q → ¬Marked q.2) : Finding tree key (some (.put 1 r.2))
  | absent (nothing : ∀ q ∈ scanned tree, ¬Concerns key q) : Finding tree key none

theorem searchFinds (named : key ≠ []) (searchable : ¬userKeyPrefixEnd key < key) :
    ∃ found, tree.findVisibleVersion key .latest = .ok found ∧ Finding tree key found := by
  refine ⟨_,foundBest consistent searchable,?_⟩
  have versions {v} : v ∈ versionsIn key (pointRecords tree key) ↔
      ∃ r ∈ scanned tree, Concerns key r ∧ (if Marked r.2 then .tombstone 2 else .put 1 r.2) = v := by
    rw [memVersionsIn]
    constructor
    · rintro ⟨r,mem,of,version⟩
      have stored := (memPoint.mp mem).1
      rw [storedVersion consistent stored] at version
      exact ⟨r,stored,of,some.inj version⟩
    · rintro ⟨r,stored,of,rfl⟩
      exact ⟨r,memPoint.mpr ⟨stored,concernsWindow named searchable of⟩,of,storedVersion consistent stored⟩
  have seen : ∀ v ∈ versionsIn key (pointRecords tree key), visible .latest v = true := by
    intro v mem
    obtain ⟨r,-,-,rfl⟩ := versions.mp mem
    refine ReadView.latestVisible.mpr ?_
    split
    · exact (by decide : (2 : CommitTs) ≠ 0)
    · exact (by decide : (1 : CommitTs) ≠ 0)
  cases best : bestOf (visible .latest) commitTs (versionsIn key (pointRecords tree key)) with
  | none =>
    refine .absent fun q mem of => ?_
    have there := versions.mpr ⟨q,mem,of,rfl⟩
    have blind := bestOfNone.mp best _ there
    rw [seen _ there] at blind
    cases blind
  | some =>
    obtain ⟨mem,-,top⟩ := bestOfSome best
    obtain ⟨r,stored,of,rfl⟩ := versions.mp mem
    by_cases marked : Marked r.2
    · rw [if_pos marked]
      exact .hidden stored of marked
    · rw [if_neg marked] at top ⊢
      refine .shown stored of fun q other of' tomb => ?_
      have there := versions.mpr ⟨q,other,of',if_pos tomb⟩
      exact absurd (top _ there (seen _ there)) (by decide : ¬(2 : CommitTs) ≤ 1)

theorem markedHidesKey (mem : r ∈ scanned tree) (of : Concerns key r) (marked : Marked r.2) {value} :
    ¬Holds tree key value := by
  rintro ⟨held,raw,kept⟩
  rcases of with decoded | same
  · rcases consistent.shape r mem with unmarked | ⟨_,-,rfl⟩
    · exact unmarked marked
    · rw [grave,decodeInternalKey] at decoded
      exact kept (decoded ▸ mem)
  · rw [consistent.agree r mem _ held same] at marked
    exact raw marked

theorem storedGet (named : key ≠ []) (searchable : ¬userKeyPrefixEnd key < key) :
    ∃ found, tree.findVisibleVersion key .latest = .ok found ∧ Finding tree key found ∧
      tree.getStored key = .ok (found.bind Lsm.shown) := by
  obtain ⟨found,searched,finding⟩ := searchFinds consistent named searchable
  refine ⟨found,searched,finding,?_⟩
  rw [getStored,searched]
  cases finding with
  | hidden => rfl
  | shown => rfl
  | absent nothing => exact copyAbsent consistent.levels fun r mem same => nothing r mem (.inr same)

theorem getRepresents {map} (represents : Represents tree map) (named : key ≠ [])
    (readable : Readable tree key) : tree.get key = .ok (map key) := by
  have decided : ∀ {o : Option Bytes}, (∀ value, o = some value ↔ Holds tree key value) → o = map key := fun same =>
    ext fun value => (same value).trans (represents key value).symm
  unfold LsmTree.get MemTable.get
  rw [show MemTable.validateKey key = .ok () from if_neg named]
  cases active : tree.active.map.find key with
  | none =>
    obtain ⟨_,-,finding,got⟩ := storedGet consistent named readable.1
    simp only [got]
    refine congrArg _ (decided fun value => ?_)
    cases finding with
    | hidden mem of marked =>
      simpa [Lsm.shown,tombstone] using markedHidesKey consistent mem of marked
    | @shown r mem of raw =>
      have own : r.1 = key := of.resolve_left fun decoded => raw r mem of (readable.2 r mem decoded)
      simp only [Lsm.shown,Version.put,bind_some,Bool.false_eq_true,if_false,some.injEq]
      constructor
      · rintro rfl
        refine ⟨own ▸ mem,raw r mem of,fun buried => ?_⟩
        exact raw _ buried (.inl (decodeInternalKey key 2)) (graveMarked key)
      · rintro ⟨held,-,-⟩
        exact consistent.agree r mem _ held own
    | absent nothing =>
      simp only [bind_none,reduceCtorEq,false_iff]
      rintro ⟨held,-,-⟩
      exact nothing _ held (.inr rfl)
  | some raw =>
    have there : (key,raw) ∈ tree.active.iter := Table.memIff.mpr active
    have stored : (key,raw) ∈ scanned tree := mem_append_right _ there
    by_cases marked : Marked raw
    · have version := storedVersion consistent stored
      rw [if_pos marked,versionOf] at version
      cases decoded : decodeOrLegacy raw with
      | error => simp [decoded,Except.toOption] at version
      | ok =>
        simp only [decoded,Except.toOption,some.injEq] at version
        subst version
        simp only [if_pos marked,decoded]
        refine congrArg _ (decided fun value => ?_)
        simpa [Lsm.shown,tombstone] using markedHidesKey consistent stored (.inr rfl) marked
    · simp only [if_neg marked]
      refine congrArg _ (decided fun value => ?_)
      constructor
      · rintro ⟨⟩
        exact ⟨stored,marked,consistent.alive _ there marked⟩
      · rintro ⟨held,-,-⟩
        exact congrArg some (consistent.agree _ stored _ held rfl)

theorem graveNamed (mem : grave key ∈ scanned tree) : key ≠ [] := by
  rcases consistent.shape _ mem with raw | ⟨_,named,same⟩
  · exact absurd (graveMarked key) raw
  · exact graveInjective same ▸ named

theorem memScan : c ∈ (scanned tree).filterMap (ingest .latest none id) ↔
      (∃ key value, (key,value) ∈ scanned tree ∧ ¬Marked value ∧ c = ⟨key,1,false,value⟩) ∨
        ∃ key, grave key ∈ scanned tree ∧ c = ⟨key,2,true,[]⟩ := by
  obtain ⟨_,_,_,payload⟩ := c
  simp only [mem_filterMap,ingestIff]
  constructor
  · rintro ⟨r,mem,value,read,rfl,-⟩
    rcases consistent.shape r mem with raw | ⟨key,named,rfl⟩
    · rw [rawRead raw] at read
      cases read
      exact .inl ⟨_,_,mem,raw,rfl⟩
    · rw [graveRead named] at read
      cases read
      exact .inr ⟨_,mem,rfl⟩
  · rintro (⟨_,_,mem,raw,same⟩ | ⟨_,mem,same⟩)
    · cases same
      exact ⟨_,mem,payload,rawRead raw,rfl,rfl,by decide,not_lt.mp latestBounds⟩
    · cases same
      exact ⟨_,mem,[],graveRead (graveNamed consistent mem),rfl,rfl,by decide,not_lt.mp latestBounds⟩

theorem scanUntied : Untied ((scanned tree).filterMap (ingest .latest none id)) := by
  intro a left b right sameKey sameStamp
  rcases (memScan consistent).mp left with ⟨_,_,mem,-,rfl⟩ | ⟨_,-,rfl⟩ <;>
    rcases (memScan consistent).mp right with ⟨_,_,mem',-,rfl⟩ | ⟨_,-,rfl⟩
  · cases sameKey
    cases consistent.agree _ mem _ mem' rfl
    rfl
  · exact absurd sameStamp (by decide : (1 : CommitTs) ≠ 2)
  · exact absurd sameStamp (by decide : (2 : CommitTs) ≠ 1)
  · cases sameKey
    rfl

theorem iterRepresents {map} (represents : Represents tree map) (sorter : Sorter) :
    ∃ pairs, tree.iter sorter = .ok pairs ∧ (pairs.map Prod.fst).Pairwise (· < ·) ∧
      ∀ key value, (key,value) ∈ pairs ↔ map key = some value := by
  refine ⟨live (newestOf sorter ((scanned tree).filterMap (ingest .latest none id))),rfl,
    liveAscending (newestAscending _ _),fun key value => ?_⟩
  rw [memLive,represents]
  simp only [memNewest (scanUntied consistent)]
  constructor
  · rintro ⟨_,mem,newest⟩
    rcases (memScan consistent).mp mem with ⟨_,_,held,raw,same⟩ | ⟨_,-,same⟩
    · cases same
      refine ⟨held,raw,fun buried => ?_⟩
      have older := newest _ ((memScan consistent).mpr (.inr ⟨key,buried,rfl⟩)) rfl
      exact absurd older (by decide : ¬(2 : CommitTs) ≤ 1)
    · cases same
  · rintro ⟨held,raw,kept⟩
    refine ⟨1,(memScan consistent).mpr (.inl ⟨key,value,held,raw,rfl⟩),?_⟩
    intro d mem sameKey
    rcases (memScan consistent).mp mem with ⟨_,_,-,-,rfl⟩ | ⟨_,buried,rfl⟩
    · exact le_refl _
    · cases sameKey
      exact absurd buried kept

end

section
variable {tree next : LsmTree}

theorem Consistent.copied (consistent : Consistent tree) : Copied tree := ⟨consistent.levels,consistent.agree⟩

theorem movedConsistent (consistent : Consistent tree) (moved : Moved tree next) : Consistent next where
  levels := moved.levels
  shape r mem := consistent.shape r ((moved.records r).mp mem)
  agree r left q right := consistent.agree r ((moved.records r).mp left) q ((moved.records q).mp right)
  alive r mem raw buried := consistent.alive r (moved.active r mem) raw ((moved.records _).mp buried)

theorem movedHolds (moved : Moved tree next) {value} : Holds next key value ↔ Holds tree key value := by
  simp [Holds,moved.records]

theorem buriedBefore {value} (raw : ¬Marked value) (wrote : Wrote tree (.put key value) next)
    (buried : grave k ∈ scanned next) : grave k ∈ scanned tree := by
  refine (putMem wrote buried).resolve_left fun new => raw ?_
  have same : (grave k).2 = value := congrArg Prod.snd new
  exact same ▸ graveMarked k

theorem putConsistent {value} (consistent : Consistent tree) (free : Unopposed tree key value)
    (wrote : Wrote tree (.put key value) next) : Consistent next where
  levels := levelsKept consistent.copied wrote
  shape r mem := by
    rcases putMem wrote mem with rfl | old
    · exact .inl free.raw
    · exact consistent.shape r old
  agree := putAgrees consistent.copied free.same wrote
  alive r mem raw buried := by
    have before := buriedBefore free.raw wrote buried
    rcases (wrotePut wrote).2 r |>.mp mem with rfl | ⟨old,-⟩
    · exact free.kept before
    · exact consistent.alive r old raw before

theorem putHolds {value} (consistent : Consistent tree) (free : Unopposed tree key value)
    (wrote : Wrote tree (.put key value) next) :
    Holds next k v ↔ if k = key then v = value else Holds tree k v := by
  have new : (key,value) ∈ scanned next := (memPut wrote).mpr (.inr (.inl rfl))
  have graves : grave k ∈ scanned next ↔ grave k ∈ scanned tree := by
    refine ⟨buriedBefore free.raw wrote,fun buried => putKeeps wrote buried fun same => ?_⟩
    exact free.free _ buried same (graveMarked k)
  unfold Holds
  rw [graves]
  split
  · rename_i same
    subst same
    constructor
    · rintro ⟨held,-,-⟩
      exact putAgrees consistent.copied free.same wrote _ held _ new rfl
    · rintro rfl
      exact ⟨new,free.raw,free.kept⟩
  · rename_i other
    refine and_congr_left fun _ => ⟨fun held => ?_,fun held => putKeeps wrote held other⟩
    refine (putMem wrote held).resolve_left fun same => other (congrArg Prod.fst same)

theorem unopposedKept {value} (free : Unopposed tree k v) (raw : ¬Marked value)
    (wrote : Wrote tree (.put key value) next) : Unopposed next k v where
  raw := free.raw
  kept buried := free.kept (buriedBefore raw wrote buried)
  free r mem keyed := by
    rcases putMem wrote mem with rfl | old
    · exact raw
    · exact free.free r old keyed
  same r mem := free.same r (wroteStored wrote ▸ mem)

theorem representsPut {value map} (consistent : Consistent tree)
    (represents : Represents tree map) (free : Unopposed tree key value)
    (wrote : Wrote tree (.put key value) next) : Represents next (update map key (some value)) := by
  intro k v
  rw [putHolds consistent free wrote,update_apply]
  split
  · simp [eq_comm]
  · exact represents k v

theorem representsBatch {map} (consistent : Consistent tree)
    (represents : Represents tree map) (free : ∀ e ∈ entries, Unopposed tree e.1 e.2) (done : Returns (LsmTree.putAll entries) tree u next) :
    Consistent next ∧ Represents next (entries.foldl (fun map e => update map e.1 (some e.2)) map) := by
  induction entries generalizing tree map with
  | nil =>
    obtain ⟨-,rfl⟩ := returnsPure.mp done
    exact ⟨consistent,represents⟩
  | cons e _ ih =>
    obtain ⟨_,wrote,later⟩ := putAllReturns done
    obtain ⟨here,more⟩ := forall_mem_cons.mp free
    exact ih (putConsistent consistent here wrote) (representsPut consistent represents here wrote)
      (fun e mem => unopposedKept (more e mem) here.raw wrote) later

end

section
variable {tree mid next : LsmTree} {key : Bytes}

theorem deleteMem (wrote : Wrote tree (.delete key) mid) (mem : r ∈ scanned mid) : r ∈ scanned tree := by
  rcases (memDelete wrote).mp mem with file | ⟨old,-⟩
  · exact mem_append_left _ file
  · exact mem_append_right _ old

theorem deleteKeeps (wrote : Wrote tree (.delete key) mid) (mem : r ∈ scanned tree) (other : r.1 ≠ key) :
    r ∈ scanned mid := by
  rcases mem_append.mp mem with file | old
  · exact (memDelete wrote).mpr (.inl file)
  · exact (memDelete wrote).mpr (.inr ⟨old,other⟩)

theorem deleteConsistent (consistent : Consistent tree) (wrote : Wrote tree (.delete key) mid) : Consistent mid where
  levels := levelsKept consistent.copied wrote
  shape r mem := consistent.shape r (deleteMem wrote mem)
  agree r left q right := consistent.agree r (deleteMem wrote left) q (deleteMem wrote right)
  alive r mem raw buried := consistent.alive r ((wroteDelete wrote).2 r |>.mp mem).1 raw (deleteMem wrote buried)

theorem deletableKept (ok : Deletable tree key) (wrote : Wrote tree (.delete key) mid) : Deletable mid key where
  free r mem := ok.free r (deleteMem wrote mem)
  place r mem := ok.place r (deleteMem wrote mem)

theorem deleteHolds (ok : Deletable tree key) (wrote : Wrote tree (.delete key) mid)
    (other : k ≠ key) : Holds mid k v ↔ Holds tree k v := by
  have graves : grave k ∈ scanned mid ↔ grave k ∈ scanned tree := by
    refine ⟨deleteMem wrote,fun buried => deleteKeeps wrote buried fun same => ?_⟩
    exact ok.free _ buried same (graveMarked k)
  unfold Holds
  rw [graves]
  exact and_congr_left fun _ => ⟨deleteMem wrote,fun held => deleteKeeps wrote held other⟩

theorem removedGet (consistent : Consistent mid) (named : key ≠ []) (gone : mid.active.map.find key = none)
    {read} (got : mid.get key = .ok read) :
    ∃ found, mid.findVisibleVersion key .latest = .ok found ∧ Finding mid key found ∧ read = found.bind Lsm.shown := by
  have active : mid.active.get key = .ok none := by
    rw [MemTable.get,show MemTable.validateKey key = .ok () from if_neg named,gone]
  rw [LsmTree.get,active] at got
  have searchable : ¬userKeyPrefixEnd key < key := by
    intro inverted
    rw [getStored,findVisibleFlat,if_pos inverted] at got
    cases got
  obtain ⟨found,searched,finding,stored⟩ := storedGet consistent named searchable
  rw [stored] at got
  exact ⟨found,searched,finding,(Except.ok.inj got).symm⟩

theorem removedNone (consistent : Consistent mid) (named : key ≠ []) (gone : mid.active.map.find key = none)
    (got : mid.get key = .ok none) {value} : ¬Holds mid key value := by
  obtain ⟨_,-,finding,shows⟩ := removedGet consistent named gone got
  cases finding with
  | hidden mem of marked => exact markedHidesKey consistent mem of marked
  | shown => cases shows
  | absent nothing => exact fun holds => nothing _ holds.1 (.inr rfl)

theorem removedSome (consistent : Consistent mid) (named : key ≠ []) (gone : mid.active.map.find key = none) (found : Found mid key (some ts)) : ts = 2 := by
  obtain ⟨_,_,got,searched,rfl⟩ := found
  obtain ⟨_,searched',finding,shows⟩ := removedGet consistent named gone got
  cases searched.symm.trans searched'
  cases finding with
  | hidden | absent => cases shows
  | shown => rfl

theorem buryConsistent (consistent : Consistent mid) (named : key ≠ []) (gone : mid.active.map.find key = none)
    (ok : Deletable mid key) (wrote : Wrote mid (.put (grave key).1 (grave key).2) next) : Consistent next where
  levels := levelsKept consistent.copied wrote
  shape r mem := by
    rcases putMem wrote mem with rfl | old
    · exact .inr ⟨key,named,rfl⟩
    · exact consistent.shape r old
  agree := by
    refine putAgrees consistent.copied (fun r file keyed => ?_) wrote
    have mem : r ∈ scanned mid := mem_append_left _ file
    rcases consistent.shape r mem with raw | ⟨_,-,rfl⟩
    · exact absurd (ok.place r mem keyed) raw
    · rfl
  alive r mem raw buried := by
    rcases (wrotePut wrote).2 r |>.mp mem with rfl | ⟨old,-⟩
    · exact raw (graveMarked key)
    · rcases putMem wrote buried with same | before
      · rw [← graveInjective same,Table.memIff.mp old] at gone
        cases gone
      · exact consistent.alive r old raw before

theorem buryHolds (ok : Deletable mid key) (wrote : Wrote mid (.put (grave key).1 (grave key).2) next) :
    Holds next k v ↔ k ≠ key ∧ Holds mid k v := by
  have new : grave key ∈ scanned next := (memPut wrote).mpr (.inr (.inl rfl))
  constructor
  · rintro ⟨held,raw,kept⟩
    have other : k ≠ key := by
      rintro rfl
      exact kept new
    have before : (k,v) ∈ scanned mid := by
      refine (putMem wrote held).resolve_left fun same => raw ?_
      have tomb : v = (grave key).2 := congrArg Prod.snd same
      exact tomb ▸ graveMarked key
    refine ⟨other,before,raw,fun buried => kept (putKeeps wrote buried fun same => other ?_)⟩
    exact graveInjective (Prod.ext same rfl)
  · rintro ⟨other,held,raw,kept⟩
    refine ⟨putKeeps wrote held fun same => raw (ok.place _ held same),raw,fun buried => ?_⟩
    rcases putMem wrote buried with same | before
    · exact other (graveInjective same)
    · exact kept before

theorem representsDelete {map} (consistent : Consistent tree) (represents : Represents tree map)
    (ok : Deletable tree key) (enters : Enters tree (.delete key) next) :
    Consistent next ∧ Represents next (update map key none) := by
  have removed : ∀ {hide gone mid}, Returns (deleteWrite key) tree (hide,gone) mid → Wrote tree (.delete key) mid ∧
      key ≠ [] ∧ mid.active.map.find key = none ∧ Found mid key hide := by
    intro _ gone mid done
    obtain ⟨wrote,-,found⟩ := deleteWriteReturns done
    obtain ⟨named,kept⟩ := wroteDelete wrote
    refine ⟨wrote,named,eq_none_iff_forall_not_mem.mpr fun value held => ?_,found⟩
    exact ((kept (key,value)).mp (Table.memIff.mpr held)).2 rfl
  have buried : ∀ {ts gone mid}, Returns (deleteWrite key) tree (some ts,gone) mid → ∀ {next},
      Returns (versionWrite key (.tombstone ts)) mid () next →
        Consistent next ∧ Represents next (update map key none) := by
    intro _ _ mid done next hidden
    obtain ⟨wrote,named,absent,found⟩ := removed done
    have after := deleteConsistent consistent wrote
    cases removedSome after named absent found
    have ok' := deletableKept ok wrote
    have bury : Wrote mid (.put (grave key).1 (grave key).2) next := (versionWriteReturns hidden).2
    refine ⟨buryConsistent after named absent ok' bury,fun k v => ?_⟩
    rw [buryHolds ok' bury,update_apply]
    split
    · rename_i same
      simp [same]
    · rename_i other
      rw [deleteHolds ok wrote other]
      simpa [other] using represents k v
  cases enters with
  | deleteOnly done =>
    obtain ⟨wrote,named,absent,found⟩ := removed done
    have after := deleteConsistent consistent wrote
    refine ⟨after,fun k v => ?_⟩
    rw [update_apply]
    split
    · rename_i same
      subst same
      simpa using removedNone after named absent found
    · rename_i other
      rw [deleteHolds ok wrote other]
      exact represents k v
  | deleteHidden done hidden => exact buried done hidden
  | deleteAfter done hidden =>
    obtain ⟨w,wrote,settles⟩ := putVersionReturns.mp hidden
    obtain ⟨after,same⟩ := buried done wrote
    have moved := settlesMoved after.copied settles
    exact ⟨movedConsistent after moved,fun k v => (same k v).trans (movedHolds moved).symm⟩

end

section
variable {tree next : LsmTree} {map : Contents}

theorem representsStep (consistent : Consistent tree) (represents : Represents tree map)
    (plain : Plain tree call) (done : step tree call = some next) :
    Consistent next ∧ Represents next (map.after call) := by
  have settled : ∀ {mid}, Consistent mid ∧ Represents mid (map.after call) → Settles mid next →
      Consistent next ∧ Represents next (map.after call) := by
    rintro mid ⟨kept,same⟩ settles
    have moved := settlesMoved kept.copied settles
    exact ⟨movedConsistent kept moved,fun k v => (same k v).trans (movedHolds moved).symm⟩
  have synced : ∀ {mid next}, Consistent mid → Synced mid next → Moved mid next := by
    intro mid next kept sync
    obtain ⟨l0,l1,levels⟩ := kept.levels
    obtain ⟨same0,same1⟩ := frameReaders sync.frame sync.logged
    have stored : next.storedRecords none = mid.storedRecords none := by simp [storedRecords,same0,same1]
    refine ⟨⟨l0,l1,same0 ▸ levels.level0,same1 ▸ levels.level1⟩,fun r => ?_,fun r mem => sync.active ▸ mem⟩
    rw [scanned,scanned,stored,sync.active]
  rcases stepEnters done with ⟨_,enters,settles⟩ | ⟨rfl,sync⟩ | ⟨rfl,-⟩
  · refine settled ?_ settles
    cases enters with
    | put done =>
      have wrote := putWriteReturns done
      exact ⟨putConsistent consistent plain.2 wrote,representsPut consistent represents plain.2 wrote⟩
    | putBatch done =>
      obtain ⟨_,puts,sync⟩ := batchWriteReturns done
      obtain ⟨kept,same⟩ := representsBatch consistent represents plain.2 puts
      have moved := synced kept sync
      exact ⟨movedConsistent kept moved,fun k v => (same k v).trans (movedHolds moved).symm⟩
    | putVersion => exact plain.2.elim
    | deleteOnly write => exact representsDelete consistent represents plain.2 (.deleteOnly write)
    | deleteHidden write hidden => exact representsDelete consistent represents plain.2 (.deleteHidden write hidden)
    | deleteAfter write hidden => exact representsDelete consistent represents plain.2 (.deleteAfter write hidden)
  · have moved := synced consistent sync
    exact ⟨movedConsistent consistent moved,fun k v => (represents k v).trans (movedHolds moved).symm⟩
  · exact plain.2.elim

theorem representsRun (consistent : Consistent tree) (represents : Represents tree map)
    (plain : Execution.Admissible step Plain tree calls) (done : run step tree calls = some next) :
    Consistent next ∧ Represents next (calls.foldl Contents.after map) := by
  induction calls generalizing tree map with
  | nil =>
    cases some.inj done
    exact ⟨consistent,represents⟩
  | cons _ _ ih =>
    obtain ⟨mid,first,later⟩ := runCons done
    obtain ⟨kept,same⟩ := representsStep consistent represents plain.1 first
    exact ih kept same (plain.2 mid first) later

theorem freshRepresents (config) : Consistent (fresh config) ∧ Represents (fresh config) fun _ => none := by
  have empty : ∀ r, r ∉ scanned (fresh config) := fun r => not_mem_nil
  refine ⟨⟨⟨[],[],rfl,rfl⟩,fun r mem => absurd mem (empty r),fun r mem => absurd mem (empty r),
    fun r mem => nomatch mem⟩,fun key value => ?_⟩
  simp [Holds,empty]

end

theorem treeIsMap {config : LsmConfig} {calls : List Call} {tree : LsmTree}
    (reached : Execution.run step (fresh config) calls = some tree)
    (plain : Execution.Admissible step Plain (fresh config) calls) :
    (∀ key, key ≠ [] → Readable tree key → tree.get key = .ok (contentsOf calls key)) ∧
      ∀ sorter, ∃ pairs, tree.iter sorter = .ok pairs ∧ (pairs.map Prod.fst).Pairwise (· < ·) ∧
        ∀ key value, (key,value) ∈ pairs ↔ contentsOf calls key = some value := by
  obtain ⟨empty,nothing⟩ := freshRepresents config
  obtain ⟨consistent,represents⟩ := representsRun empty nothing plain reached
  exact ⟨fun key named readable => getRepresents consistent represents named readable,
    iterRepresents consistent represents⟩

def plainCalls : List Call :=
  [.put [97] [1],.delete [97],.put [97] [3],.put [98] [2],.putBatch [([99],[4]),([100],[5])],.put [98] [2],
    .delete [99]]

def twoLevels : LsmConfig := ⟨4,2,.everyAppend,1,.default⟩

theorem plainCallsAreMap : ∃ tree, Execution.run step (fresh twoLevels) plainCalls = some tree ∧
    tree.get [97] = .ok (some [3]) ∧ tree.get [99] = .ok none := by
  obtain ⟨tree,reached,first,second⟩ : ∃ tree ∈ run step (fresh twoLevels) plainCalls,
      Readable tree [97] ∧ Readable tree [99] := by decide +kernel
  obtain ⟨reads,-⟩ := treeIsMap reached (by decide +kernel)
  exact ⟨tree,reached,reads [97] (by decide) first,reads [99] (by decide) second⟩

/- The tombstone of the first value outlives the second put. -/
theorem tombstoneHidesLaterPut :
    (Execution.run step (fresh flushing) [.put [97] [1],.delete [97],.put [97] [2]]).isSome = true ∧
      contentsOf [.put [97] [1],.delete [97],.put [97] [2]] [97] = some [2] ∧
      ∀ tree ∈ Execution.run step (fresh flushing) [.put [97] [1],.delete [97],.put [97] [2]],
        tree.get [97] = .ok none := by
  decide +kernel

end NoeDB.LsmMap
