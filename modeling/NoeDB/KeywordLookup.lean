import NoeDB.Keywords
import Mathlib.Data.List.Nodup

/-! `lookup` finds exactly the words of `KEYWORD_TABLE` (noedb-lexer: keywords.rs). -/
namespace NoeDB.Keywords
open ByteString Text List

def keywordTable : List (String × Keyword) :=
  [("ADD",.add),("ALL",.all),("ALTER",.alter),("ANALYZE",.analyze),("AND",.and),("ANY",.any),("AS",.as'),("ASC",.asc),
   ("AUTHORIZATION",.authorization),("BEGIN",.begin),("BETWEEN",.between),("BY",.by'),("CASE",.case),("CAST",.cast),
   ("CHECK",.check),("COLLATE",.collate),("COLUMN",.column),("COMMIT",.commit),("CONSTRAINT",.constraint),
   ("CREATE",.create),("CROSS",.cross),("CURRENT",.current),("CURRENT_DATE",.currentDate),
   ("CURRENT_TIME",.currentTime),("CURRENT_TIMESTAMP",.currentTimestamp),("CURRENT_USER",.currentUser),
   ("DEFAULT",.default),("DELETE",.delete),("DESC",.desc),("DISTINCT",.distinct),("DROP",.drop),("ELSE",.else'),
   ("ENABLE",.enable),("END",.end'),("ESCAPE",.escape),("EXCEPT",.except),("EXECUTE",.execute),("EXISTS",.exists'),
   ("FALSE",.false),("FETCH",.fetch),("FOLLOWING",.following),("FOR",.for'),("FOREIGN",.foreign),("FROM",.from'),
   ("FULL",.full),("GRANT",.grant),("GROUP",.group),("HAVING",.having),("IF",.if'),("IN",.in'),("INDEX",.index),
   ("INNER",.inner),("INSERT",.insert),("INTERSECT",.intersect),("INTO",.into),("IS",.is),("JOIN",.join),("KEY",.key),
   ("LEFT",.left),("LEVEL",.level),("LIKE",.like),("LIMIT",.limit),("NATURAL",.natural),("NOT",.not),("NULL",.null),
   ("NULLIF",.nullif),("OF",.of),("OFFSET",.offset),("ON",.on'),("OR",.or),("ORDER",.order),("OUTER",.outer),
   ("OVER",.over'),("PARTITION",.partition),("POLICY",.policy),("PRECEDING",.preceding),("PREPARE",.prepare),
   ("PRIMARY",.primary),("RANGE",.range),("RECURSIVE",.recursive),("REFERENCES",.references),("RIGHT",.right),
   ("ROLE",.role),("ROLLBACK",.rollback),("ROW",.row),("ROWS",.rows),("SECURITY",.security),("SELECT",.select),
   ("SET",.set'),("SOME",.some),("TABLE",.table),("THEN",.then'),("TO",.to'),("TRUE",.true),("UNBOUNDED",.unbounded),
   ("UNION",.union),("UNIQUE",.unique),("UPDATE",.update),("USER",.user),("USING",.using'),("VALUES",.values),
   ("VIEW",.view),("WHEN",.when),("WHERE",.where'),("WITH",.with')]

theorem tableBuckets : ∀ n < 18, tableForLen n = keywordTable.filter fun e => (utf8 e.1).length = n := by
  decide +kernel

theorem tableShort : ∀ e ∈ keywordTable, (utf8 e.1).length < 18 := by decide +kernel

theorem tableUpper : ∀ e ∈ keywordTable, (utf8 e.1).map upperByte = utf8 e.1 := by decide +kernel

theorem tableSorted : keywordTable.Pairwise fun a b => utf8 a.1 < utf8 b.1 := by decide +kernel

theorem bucketIs (n) : tableForLen n = keywordTable.filter fun e => (utf8 e.1).length = n := by
  by_cases short : n < 18
  · exact tableBuckets n short
  · obtain ⟨m,rfl⟩ : ∃ m, n = m+18 := ⟨n-18,by omega⟩
    refine (filter_eq_nil_iff.mpr fun e mem => ?_).symm
    have least := tableShort e mem
    simp only [decide_eq_true_eq]
    omega

theorem compareIff (left right) : (compareBytes left right = .lt ↔ left < right) ∧
    (compareBytes left right = .eq ↔ left = right) ∧ (compareBytes left right = .gt ↔ right < left) := by
  fun_induction compareBytes left right with
  | case1 | case2 | case3 => simp
  | case4 _ _ _ _ below => simp [cons_lt_cons_iff,below,ne_of_lt below,ne_of_gt below,le_of_lt below]
  | case5 _ _ _ _ _ above => simp [cons_lt_cons_iff,above,ne_of_lt above,ne_of_gt above,le_of_lt above]
  | case6 a _ b _ below above ih =>
    obtain rfl : a = b := le_antisymm (not_lt.mp above) (not_lt.mp below)
    simpa [cons_lt_cons_iff] using ih

theorem searchSound (found : searchTable probe table fuel lo hi = some k) :
    ∃ e ∈ table, probe (utf8 e.1) = .eq ∧ e.2 = k := by
  induction fuel generalizing lo hi with
  | zero => cases found
  | succ _ ih =>
    simp only [searchTable] at found
    split at found
    · cases found
    · split at found
      · cases found
      · rename_i there
        split at found
        · exact ih found
        · rename_i equal
          exact ⟨_,mem_of_getElem? there,equal,Option.some.inj found⟩
        · exact ih found

section
variable {probe : Bytes → Ordering} {word : Bytes} {table : List (String × Keyword)} {e : String × Keyword}
  (sorted : table.Pairwise fun a b => utf8 a.1 < utf8 b.1)
  (agrees : ∀ q ∈ table, probe (utf8 q.1) = compareBytes word (utf8 q.1))
include sorted agrees

theorem searchComplete (there : table[i]? = some e) (is : utf8 e.1 = word)
    (enough : hi-lo ≤ fuel) (first : lo ≤ i) (last : i < hi) (inside : hi ≤ table.length) :
    searchTable probe table fuel lo hi = some e.2 := by
  induction fuel generalizing lo hi with
  | zero => omega
  | succ fuel ih =>
    have middle : lo+(hi-lo)/2 < table.length := by omega
    simp only [searchTable,if_neg (show ¬hi ≤ lo by omega)]
    generalize at' : lo+(hi-lo)/2 = mid at middle
    obtain ⟨bound,rfl⟩ := List.getElem?_eq_some_iff.mp there
    have order := pairwise_iff_getElem.mp sorted
    obtain ⟨less,same,more⟩ := compareIff word (utf8 table[mid].1)
    simp only [getElem?_eq_getElem middle,agrees _ (getElem_mem middle)]
    subst word
    rcases Nat.lt_trichotomy i mid with before | rfl | after
    · rw [less.mpr (order i mid bound middle before)]
      exact ih (by omega) first before (by omega)
    · rw [same.mpr rfl]
    · rw [more.mpr (order mid i middle bound after)]
      exact ih (by omega) after last inside

theorem lookupInTableIff : lookupInTable probe table = some k ↔ ∃ e ∈ table, utf8 e.1 = word ∧ e.2 = k := by
  have equal : ∀ q ∈ table, probe (utf8 q.1) = .eq ↔ utf8 q.1 = word := by
    intro q mem
    rw [agrees q mem,(compareIff word _).2.1,eq_comm]
  have names : (table.map fun q => utf8 q.1).Nodup := pairwise_map.mpr (sorted.imp ne_of_lt)
  unfold lookupInTable
  split
  · rw [Option.map_eq_some_iff]
    constructor
    · rintro ⟨e,found,is⟩
      have mem := mem_of_find?_eq_some found
      exact ⟨e,mem,(equal e mem).mp (by simpa using find?_some found),is⟩
    · rintro ⟨e,mem,named,is⟩
      cases found : table.find? fun q => probe (utf8 q.1) == .eq with
      | none => exact absurd ((equal e mem).mpr named) (by simpa using find?_eq_none.mp found e mem)
      | some other =>
        have mem' := mem_of_find?_eq_some found
        have named' := (equal other mem').mp (by simpa using find?_some found)
        exact ⟨other,rfl,inj_on_of_nodup_map names mem' mem (named'.trans named.symm) ▸ is⟩
  · constructor
    · intro found
      obtain ⟨e,mem,eq,is⟩ := searchSound found
      exact ⟨e,mem,(equal e mem).mp eq,is⟩
    · rintro ⟨e,mem,named,rfl⟩
      obtain ⟨i,there⟩ := mem_iff_getElem?.mp mem
      have inside := (List.getElem?_eq_some_iff.mp there).1
      exact searchComplete sorted agrees there named (by omega) (Nat.zero_le i) inside (le_refl _)

end

theorem lookupExact (word : Bytes) (k : Keyword) :
    lookup word = some k ↔ ∃ name, (name,k) ∈ keywordTable ∧ utf8 name = word.map upperByte := by
  have sorted : (tableForLen word.length).Pairwise fun a b => utf8 a.1 < utf8 b.1 := by
    rw [bucketIs]
    exact tableSorted.filter _
  have upper : ∀ q ∈ tableForLen word.length, (utf8 q.1).map upperByte = utf8 q.1 := by
    intro q mem
    rw [bucketIs,mem_filter] at mem
    exact tableUpper q mem.1
  have entries : (∃ e ∈ tableForLen word.length, utf8 e.1 = word.map upperByte ∧ e.2 = k) ↔
      ∃ name, (name,k) ∈ keywordTable ∧ utf8 name = word.map upperByte := by
    rw [bucketIs]
    constructor
    · rintro ⟨⟨name,_⟩,mem,same,rfl⟩
      exact ⟨name,(mem_filter.mp mem).1,same⟩
    · rintro ⟨name,mem,same⟩
      have size := congrArg length same
      exact ⟨_,mem_filter.mpr ⟨mem,by simpa using size⟩,same,rfl⟩
  rw [← entries]
  simp only [lookup]
  split
  · rename_i body
    have same : word.map upperByte = word := by
      refine (map_congr_left fun b mem => ?_).trans (map_id word)
      have letter := all_eq_true.mp body b mem
      simp only [isAsciiUppercase,Bool.or_eq_true,decide_eq_true_eq,beq_iff_eq] at letter
      rw [upperByte,if_neg,id]
      rintro ⟨low,_⟩
      rcases letter with ⟨_,high⟩ | rfl
      · exact absurd (le_trans low high) (by decide)
      · exact absurd low (by decide)
    rw [same]
    exact lookupInTableIff sorted fun _ _ => rfl
  · refine lookupInTableIff sorted fun q mem => ?_
    rw [cmpIgnoreAsciiCase,upper q mem]

end NoeDB.Keywords
