import NoeDB.SqlEval

/-! What an operator yields when its rows are pulled one by one: the rows up to the end or
up to the first fault (noedb-planner: executor.rs, `next_row` and `collect`). -/
namespace NoeDB.RowStream
open SqlValue

structure Output where
  rows : List Row
  fault : Option ExecFault

namespace Output

def ofRows (rows : List Row) : Output := ⟨rows,none⟩

def collect (out : Output) : Eval (List Row) :=
  match out.fault with
  | none => .ok out.rows
  | some fault => .error fault

end Output

def selecting (test : Row → Eval Bool) : List Row → Option ExecFault → Output
  | [],fault => ⟨[],fault⟩
  | row :: rest,fault =>
      match test row with
      | .error e => ⟨[],some e⟩
      | .ok keep =>
          let later := selecting test rest fault
          ⟨if keep then row :: later.rows else later.rows,later.fault⟩

theorem selectingOk (all : ∀ row ∈ rows, test row = .ok (keep row)) (fault) :
    selecting test rows fault = ⟨rows.filter keep,fault⟩ := by
  induction rows with
  | nil => rfl
  | cons _ _ ih =>
    obtain ⟨here,later⟩ := List.forall_mem_cons.mp all
    simp [selecting,here,ih later,List.filter_cons]

theorem selectingNoFault
    (done : (selecting test rows fault).fault = none) : ∀ row ∈ rows, ∃ keep, test row = .ok keep := by
  induction rows with
  | nil => simp
  | cons _ _ ih =>
    unfold selecting at done
    split at done
    · cases done
    · rename_i keep tested
      exact List.forall_mem_cons.mpr ⟨⟨keep,tested⟩,ih done⟩

theorem collectOk {out : Output} : out.collect = .ok rows ↔ out = .ofRows rows := by
  obtain ⟨_,fault⟩ := out
  cases fault <;> simp [Output.collect,Output.ofRows]

end NoeDB.RowStream
