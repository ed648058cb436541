import NoeDB.KWayMerge
import NoeDB.StorageTables
import Mathlib.Data.Prod.Lex

/-! Merging the table files of level 0 into one (compaction.rs). The heap orders its
entries by key, value and file number, and the entry popped last for a key is the one
that stays, whichever file it comes from. -/
namespace NoeDB.Compaction
open ByteString OrderedTable StorageTypes StorageTables KWayMerge List Option Table MemTable

abbrev MergeEntry := Bytes ×ₗ Bytes ×ₗ Nat

def mergeEntry (file : Nat) (record : Record) : MergeEntry := toLex (record.1,toLex (record.2,file))

def keyOf (e : MergeEntry) : Bytes := (ofLex e).1
def valueOf (e : MergeEntry) : Bytes := (ofLex (ofLex e).2).1
def fileOf (e : MergeEntry) : Nat := (ofLex (ofLex e).2).2

/- The loop over the heap. `fuel` is the number of entries left to pop. -/
def mergeLoop : Nat → List MergeEntry → List (List Record) → MemTable → Except Fault MemTable
  | 0,_,_,merged => .ok merged
  | _,[],_,merged => .ok merged
  | fuel+1,e :: heap,streams,merged =>
      match merged.put (keyOf e) (valueOf e) with
      | .error fault => .error fault
      | .ok next =>
          match streams.getD (fileOf e) [] with
          | [] => mergeLoop fuel heap streams next
          | r :: rest => mergeLoop fuel (push (mergeEntry (fileOf e) r) heap) (streams.set (fileOf e) rest) next

def mergeStreams (streams : List (List Record)) : Except Fault MemTable :=
  mergeLoop (pending mergeEntry 0 streams).length (prime mergeEntry 0 streams) (streams.map List.tail) .new

def missingFile : Fault := .error (.io "No such file or directory (os error 2)")

def openAll : List (Option Sst) → Except Fault (List Sst)
  | [] => .ok []
  | none :: _ => .error missingFile
  | some sst :: rest =>
      match openAll rest with
      | .error fault => .error fault
      | .ok more => .ok (sst :: more)

def compactLevel0ToL1 (l0Files : List (Option Sst)) : Except Fault Sst :=
  if l0Files = [] then .error (.error (.invalidInput "nothing to compact"))
  else match openAll l0Files with
    | .error fault => .error fault
    | .ok readers =>
        match mergeStreams (readers.map Sst.scan) with
        | .error fault => .error fault
        | .ok merged => .ok (.writeFromMemtable merged)

def putAll (table : MemTable) : List MergeEntry → Except Fault MemTable
  | [] => .ok table
  | e :: rest =>
      match table.put (keyOf e) (valueOf e) with
      | .error fault => .error fault
      | .ok next => putAll next rest

theorem mergeLoopDrain (fuel heap streams merged) :
    mergeLoop fuel heap streams merged = putAll merged (drain mergeEntry fileOf fuel heap streams) := by
  induction fuel generalizing heap streams merged with
  | zero => rfl
  | succ _ ih =>
    cases heap with
    | nil => rfl
    | cons e heap =>
      simp only [mergeLoop,drain]
      cases streams.getD (fileOf e) [] with
      | nil =>
        simp only [putAll]
        cases merged.put (keyOf e) (valueOf e) with
        | error => rfl
        | ok next => exact ih heap streams next
      | cons =>
        simp only [putAll]
        cases merged.put (keyOf e) (valueOf e) with
        | error => rfl
        | ok next => exact ih _ _ next

def Greatest (files : List Sst) (key value : Bytes) : Prop :=
  (∃ f ∈ files, f.get key = some value) ∧ ∀ f ∈ files, ∀ other, f.get key = some other → other ≤ value

theorem entryLe (ordered : a ≤ b) (same : keyOf a = keyOf b) : valueOf a ≤ valueOf b := by
  rcases Prod.Lex.le_iff.mp ordered with less | ⟨_,rest⟩
  · exact absurd same (ne_of_lt less)
  · rcases Prod.Lex.le_iff.mp rest with less | ⟨eq,_⟩
    · exact le_of_lt less
    · exact le_of_eq eq

def lastOf (key : Bytes) : List MergeEntry → Option Bytes
  | [] => none
  | e :: rest => (lastOf key rest).or (if keyOf e = key then some (valueOf e) else none)

theorem putAllFind {entries} (named : ∀ e ∈ entries, keyOf e ≠ []) (table) :
    ∃ t, putAll table entries = .ok t ∧ ∀ key, t.map.find key = (lastOf key entries).or (table.map.find key) := by
  induction entries generalizing table with
  | nil => exact ⟨table,rfl,fun _ => rfl⟩
  | cons e _ ih =>
    have nonempty := named e mem_cons_self
    obtain ⟨t,done,found⟩ := ih (fun e mem => named e (mem_cons_of_mem _ mem))
      (table.insert (keyOf e) (valueOf e) nonempty)
    refine ⟨t,?_,fun key => ?_⟩
    · simpa only [putAll,put,dif_neg nonempty] using done
    · rw [found key]
      simp only [lastOf,MemTable.insert,findInsert,Option.or_assoc]
      split <;> rfl

theorem lastOfNone {entries} (none : lastOf key entries = none) : ∀ e ∈ entries, keyOf e ≠ key := by
  induction entries with
  | nil => simp
  | cons _ _ ih =>
    simp only [lastOf,or_eq_none_iff,ite_eq_right_iff,reduceCtorEq,imp_false] at none
    intro other mem
    rcases mem_cons.mp mem with here | later
    · exact here ▸ none.2
    · exact ih none.1 other later

theorem lastOfGreatest {entries} (asc : entries.Pairwise (· ≤ ·)) (found : lastOf key entries = some value) :
    (∃ e ∈ entries, keyOf e = key ∧ valueOf e = value) ∧ ∀ e ∈ entries, keyOf e = key → valueOf e ≤ value := by
  induction entries with
  | nil => simp [lastOf] at found
  | cons e rest ih =>
    obtain ⟨first,tail⟩ := pairwise_cons.mp asc
    cases later : lastOf key rest with
    | none =>
      simp only [lastOf,later,none_or,ite_none_right_eq_some,some.injEq] at found
      refine ⟨⟨e,mem_cons_self,found⟩,?_⟩
      intro other mem same
      rcases mem_cons.mp mem with here | there
      · exact le_of_eq (here ▸ found.2)
      · exact absurd same (lastOfNone later other there)
    | some =>
      simp only [lastOf,later,some_or,some.injEq] at found
      subst found
      obtain ⟨⟨top,inside,key',value'⟩,above⟩ := ih tail later
      refine ⟨⟨top,mem_cons_of_mem _ inside,key',value'⟩,?_⟩
      intro other mem same
      rcases mem_cons.mp mem with here | there
      · subst here
        exact value' ▸ entryLe (first top inside) (same.trans key'.symm)
      · exact above other there same

theorem scanAscending (file) (sst : Sst) : sst.scan.Pairwise fun a b => mergeEntry file a ≤ mergeEntry file b := by
  refine List.Pairwise.imp ?_ sst.records.ascending
  intro a b less
  exact Prod.Lex.le_iff.mpr (.inl less)

theorem streamsAscending (files : List Sst) (i : Nat) :
    ((files.map Sst.scan).getD i []).Pairwise fun a b => mergeEntry i a ≤ mergeEntry i b := by
  rw [getD_eq_getElem?_getD,List.getElem?_map]
  cases files[i]? with
  | none => exact List.Pairwise.nil
  | some sst => exact scanAscending i sst

theorem memStreams {files : List Sst} (mem : e ∈ pending mergeEntry 0 (files.map Sst.scan)) :
    ∃ f ∈ files, f.get (keyOf e) = some (valueOf e) := by
  obtain ⟨i,r,inside,same⟩ := memPending.mp mem
  rw [getD_eq_getElem?_getD,List.getElem?_map] at inside
  cases here : files[i]? with
  | none => simp [here] at inside
  | some sst =>
    rw [here] at inside
    subst same
    exact ⟨sst,mem_of_getElem? here,memIff.mp inside⟩

theorem streamsMem {files : List Sst} (file : f ∈ files) (held : f.get key = some value) :
    ∃ e ∈ pending mergeEntry 0 (files.map Sst.scan), keyOf e = key ∧ valueOf e = value := by
  obtain ⟨i,here⟩ := List.getElem?_of_mem file
  refine ⟨mergeEntry (0+i) (key,value),memPending.mpr ⟨i,(key,value),?_,rfl⟩,rfl,rfl⟩
  rw [getD_eq_getElem?_getD,List.getElem?_map,here]
  exact memIff.mpr held

theorem openAllSome (files) : openAll (files.map some) = .ok files := by
  induction files with
  | nil => rfl
  | cons _ _ ih => simp [openAll,ih]

theorem compactGreatest {files : List Sst} (some' : files ≠ []) : ∃ out, compactLevel0ToL1 (files.map some) = .ok out ∧
      ∀ key value, out.get key = some value ↔ Greatest files key value := by
  have tagged : ∀ i (r : Record), fileOf (mergeEntry i r) = i := fun _ _ => rfl
  have perm := mergedPerm tagged (streamsAscending files)
  have asc := (drainSorts tagged (primeLed tagged (streamsAscending files)) (permPrimed 0 _).length_eq.le).2
  have named : ∀ e ∈ merged mergeEntry fileOf (files.map Sst.scan), keyOf e ≠ [] := by
    intro e mem
    obtain ⟨f,-,held⟩ := memStreams (perm.mem_iff.mp mem)
    exact f.named (keyOf e,valueOf e) (memIff.mpr held)
  obtain ⟨t,done,found⟩ := putAllFind named .new
  have greatest : ∀ {key value}, t.map.find key = some value → Greatest files key value := by
    intro key value here
    rw [found key] at here
    simp only [new,findEmpty,or_none] at here
    obtain ⟨⟨_,inside,key',value'⟩,above⟩ := lastOfGreatest asc here
    refine ⟨?_,?_⟩
    · obtain ⟨f,file,held⟩ := memStreams (perm.mem_iff.mp inside)
      exact ⟨f,file,key' ▸ value' ▸ held⟩
    · intro f file other held
      obtain ⟨e,mem,sameKey,sameValue⟩ := streamsMem file held
      exact sameValue ▸ above e (perm.mem_iff.mpr mem) sameKey
  refine ⟨.writeFromMemtable t,?_,fun key value => ⟨greatest,?_⟩⟩
  · have nonempty : files.map some ≠ [] := by simpa using some'
    simp only [compactLevel0ToL1,if_neg nonempty,openAllSome,mergeStreams,mergeLoopDrain]
    rw [merged] at done
    rw [done]
  · rintro ⟨⟨f,file,held⟩,above⟩
    cases here : t.map.find key with
    | some other =>
      obtain ⟨⟨g,file',held'⟩,above'⟩ := greatest here
      have same : other = value := le_antisymm (above g file' other held') (above' f file value held)
      exact same ▸ here
    | none =>
      obtain ⟨e,mem,sameKey,-⟩ := streamsMem file held
      rw [found key] at here
      simp only [new,findEmpty,or_none] at here
      exact absurd sameKey (lastOfNone here e (perm.mem_iff.mpr mem))

end NoeDB.Compaction
