import NoeDB.SqlEval

/-! `LIKE` patterns (noedb-planner: eval.rs, `sql_like`): the table of the program holds, for
each beginning of the text, which beginnings of the pattern match it. -/
namespace NoeDB.LikePatterns
open SqlEval List

def Covers (p : Char) (run : List Char) : Prop := p = '%' ∨ ∃ c, run = [c] ∧ (p = '_' ∨ c = p)

def Like (pattern text : List Char) : Prop := ∃ runs, Forall₂ Covers pattern runs ∧ runs.flatten = text

theorem likeNil : Like [] text ↔ text = [] := by
  unfold Like
  constructor
  · rintro ⟨_,covers,rfl⟩
    cases covers
    rfl
  · rintro rfl
    exact ⟨[],.nil,rfl⟩

theorem likeSnoc :
    Like (pattern ++ [p]) text ↔ ∃ before run, text = before ++ run ∧ Like pattern before ∧ Covers p run := by
  constructor
  · rintro ⟨runs,covers,rfl⟩
    have first := forall₂_take_append runs pattern [p] covers.flip
    obtain ⟨run,_,covered,ends,last⟩ := forall₂_cons_right_iff.mp (forall₂_drop_append runs pattern [p] covers.flip)
    cases ends
    refine ⟨(runs.take pattern.length).flatten,run,?_,⟨_,first.flip,rfl⟩,covered⟩
    rw [← @flatten_singleton _ run,← flatten_append,← last,take_append_drop]
  · rintro ⟨_,run,rfl,⟨runs,covers,rfl⟩,last⟩
    exact ⟨runs ++ [run],rel_append covers (.cons last .nil),by simp⟩

theorem likeAny :
    Like (pattern ++ ['%']) (text ++ [t]) ↔ Like pattern (text ++ [t]) ∨ Like (pattern ++ ['%']) text := by
  simp only [likeSnoc]
  constructor
  · rintro ⟨before,run,whole,like,covers⟩
    rcases eq_nil_or_concat run with rfl | ⟨run,_,rfl⟩
    · rw [append_nil] at whole
      exact .inl (whole ▸ like)
    · rw [concat_eq_append,← append_assoc] at whole
      exact .inr ⟨before,run,(append_inj' whole rfl).1,like,.inl rfl⟩
  · rintro (like | ⟨before,run,rfl,like,_⟩)
    · exact ⟨_,[],(append_nil _).symm,like,.inl rfl⟩
    · exact ⟨before,run ++ [t],append_assoc _ _ _,like,.inl rfl⟩

theorem likeOne (single : p ≠ '%') : Like (pattern ++ [p]) (text ++ [t]) ↔ (p = '_' ∨ t = p) ∧ Like pattern text := by
  rw [likeSnoc]
  constructor
  · rintro ⟨_,_,whole,like,any | ⟨c,rfl,covers⟩⟩
    · exact absurd any single
    · obtain ⟨rfl,same⟩ := append_inj' whole rfl
      cases same
      exact ⟨covers,like⟩
  · rintro ⟨covers,like⟩
    exact ⟨text,[t],rfl,like,.inr ⟨t,rfl,covers⟩⟩

theorem likeEmpty : Like (pattern ++ [p]) [] ↔ p = '%' ∧ Like pattern [] := by
  rw [likeSnoc]
  constructor
  · rintro ⟨_,_,whole,like,covers⟩
    obtain ⟨rfl,rfl⟩ := append_eq_nil_iff.mp whole.symm
    rcases covers with any | ⟨_,none',_⟩
    · exact ⟨any,like⟩
    · cases none'
  · rintro ⟨any,like⟩
    exact ⟨[],[],rfl,like,.inl any⟩

inductive Entries (text : List Char) : List Char → List Char → List Bool → Prop where
  | last {done b} (here : b = true ↔ Like done text) : Entries text done [] [b]
  | next {done p pattern b row} (here : b = true ↔ Like done text) (rest : Entries text (done ++ [p]) pattern row) :
      Entries text done (p :: pattern) (b :: row)

theorem startEntries (pattern) (here : left = true ↔ Like done []) :
    Entries [] done pattern (likeStart left pattern) := by
  induction pattern generalizing left done with
  | nil => exact .last here
  | cons _ _ ih =>
    refine .next here (ih ?_)
    rw [likeEmpty,Bool.and_eq_true,decide_eq_true_eq,here]

theorem nextEntries (entries : Entries text done pattern row)
    (here : left = true ↔ Like done (text ++ [t])) : Entries (text ++ [t]) done pattern (likeNext t left row pattern) := by
  induction entries generalizing left with
  | last => exact .last here
  | @next done p pattern diagonal row above rest ih =>
    have step {up : Bool} (upper : up = true ↔ Like (done ++ [p]) text) :
        (if p = '%' then left || up else (p = '_' || t = p) && diagonal) = true ↔ Like (done ++ [p]) (text ++ [t]) := by
      split
      · rename_i any
        subst any
        rw [likeAny,Bool.or_eq_true,here,upper]
      · rename_i single
        simp [likeOne single,above]
    cases rest with
    | last upper | next upper => exact .next here (ih (step upper))

theorem lastEntry (entries : Entries text done pattern row) :
    row.getLast?.getD false = true ↔ Like (done ++ pattern) text := by
  induction entries with
  | last here => simpa using here
  | next _ rest ih =>
    cases rest <;> simpa using ih

theorem foldedEntries (text : List Char) (entries : Entries before [] pattern row) :
    Entries (before ++ text) [] pattern (text.foldl (fun row t => likeNext t false row pattern) row) := by
  induction text generalizing before row with
  | nil => simpa using entries
  | cons t _ ih =>
    have stepped := ih (nextEntries entries (show false = true ↔ Like [] (before ++ [t]) by simp [likeNil]))
    rwa [append_assoc,singleton_append] at stepped

theorem sqlLikeIff (text pattern : String) : sqlLike text pattern = true ↔ Like pattern.toList text.toList := by
  have start := startEntries pattern.toList (show true = true ↔ Like [] [] by simp [likeNil])
  exact lastEntry (foldedEntries text.toList start)

end NoeDB.LikePatterns
