import Mathlib.Logic.Basic

/-! Programs that change a state and may fail. A program that fails leaves the state
it has reached, not the one it started in. -/
namespace NoeDB.Fallible

abbrev Program (σ ε : Type) := ExceptT ε (StateM σ)

variable {σ ε α β : Type}

theorem boundOk {next : α → Except ε β} (done : (first >>= next) = .ok b) : ∃ a, first = .ok a ∧ next a = .ok b := by
  cases first with
  | error => cases done
  | ok a => exact ⟨a,rfl,done⟩

def execute (p : Program σ ε α) (s : σ) : Except ε α × σ := (p.run.run s).run

def attempt (result : Except ε α) : Program σ ε α := ExceptT.mk (pure result)

def Returns (p : Program σ ε α) (s : σ) (a : α) (t : σ) : Prop := execute p s = (.ok a,t)

theorem executeBind (p) (f : α → Program σ ε β) (s) : execute (p >>= f) s = match execute p s with
      | (.ok a,t) => execute (f a) t
      | (.error e,t) => (.error e,t) := by
  simp only [execute,ExceptT.run_bind,StateT.run_bind]
  cases found : (p.run.run s) with
  | mk result => cases result <;> rfl

@[simp] theorem returnsPure : Returns (pure a : Program σ ε α) s b t ↔ b = a ∧ t = s := by
  simp only [Returns,execute,ExceptT.run_pure,StateT.run_pure]
  constructor
  · rintro ⟨⟩
    exact ⟨rfl,rfl⟩
  · rintro ⟨rfl,rfl⟩
    rfl

@[simp] theorem returnsBind {f : α → Program σ ε β} :
    Returns (p >>= f) s b t ↔ ∃ a mid, Returns p s a mid ∧ Returns (f a) mid b t := by
  simp only [Returns,executeBind]
  obtain ⟨result,mid⟩ := execute p s
  cases result with
  | error => simp
  | ok a =>
    constructor
    · intro returned
      exact ⟨a,mid,rfl,returned⟩
    · rintro ⟨_,_,⟨⟩,returned⟩
      exact returned

theorem returnsThen {p} {f : α → Program σ ε β} {s mid a} (first : Returns p s a mid)
    (rest : ∃ b t, Returns (f a) mid b t) : ∃ b t, Returns (p >>= f) s b t := by
  obtain ⟨b,t,last⟩ := rest
  exact ⟨b,t,returnsBind.mpr ⟨a,mid,first,last⟩⟩

@[simp] theorem returnsThrow : Returns (throw e : Program σ ε α) s a t ↔ False := by
  simp only [iff_false]
  intro returned
  cases returned

@[simp] theorem returnsGet : Returns (get : Program σ ε σ) s r t ↔ r = s ∧ t = s := by
  constructor
  · rintro ⟨⟩
    exact ⟨rfl,rfl⟩
  · rintro ⟨rfl,rfl⟩
    rfl

theorem returnsGetBind {f : σ → Program σ ε β} {s t : σ} : Returns (get >>= f) s b t ↔ Returns (f s) s b t := by
  constructor
  · intro returned
    obtain ⟨_,_,read,rest⟩ := returnsBind.mp returned
    obtain ⟨rfl,rfl⟩ := returnsGet.mp read
    exact rest
  · intro rest
    exact returnsBind.mpr ⟨s,s,returnsGet.mpr ⟨rfl,rfl⟩,rest⟩

@[simp] theorem returnsModify : Returns (modify f : Program σ ε Unit) s u t ↔ t = f s := by
  constructor
  · rintro ⟨⟩
    rfl
  · rintro rfl
    rfl

@[simp] theorem returnsAttempt : Returns (attempt result : Program σ ε α) s a t ↔ result = .ok a ∧ t = s := by
  constructor
  · intro returned
    exact ⟨congrArg Prod.fst returned,(congrArg Prod.snd returned).symm⟩
  · rintro ⟨rfl,rfl⟩
    rfl

def Leaves (p : Program σ ε α) (s : σ) (good : α → σ → Prop) (bad : σ → Prop) : Prop :=
  (∃ a t, Returns p s a t ∧ good a t) ∨ ∃ e t, execute p s = (.error e,t) ∧ bad t

section
variable {p : Program σ ε α} {f : α → Program σ ε β} {s : σ} {bad : σ → Prop}

theorem leavesReturns {a : α} (done : Returns p s a t) (rest : Leaves (f a) t good bad) :
    Leaves (p >>= f) s good bad := by
  rcases rest with ⟨b,u,last,here⟩ | ⟨e,u,last,here⟩
  · exact .inl ⟨b,u,returnsBind.mpr ⟨a,t,done,last⟩,here⟩
  · refine .inr ⟨e,u,?_,here⟩
    rw [executeBind,show execute p s = (.ok a,t) from done]
    exact last

theorem leavesBind (leaves : Leaves p s first bad)
    (then' : ∀ a t, first a t → Leaves (f a) t good bad) : Leaves (p >>= f) s good bad := by
  rcases leaves with ⟨a,t,done,here⟩ | ⟨e,t,failed,here⟩
  · exact leavesReturns done (then' a t here)
  · refine .inr ⟨e,t,?_,here⟩
    rw [executeBind,failed]

theorem leavesMono (leaves : Leaves p s good bad)
    (better : ∀ a t, good a t → other a t) (fails : ∀ t, bad t → worse t) : Leaves p s other worse := by
  rcases leaves with ⟨a,t,done,here⟩ | ⟨e,t,failed,here⟩
  · exact .inl ⟨a,t,done,better a t here⟩
  · exact .inr ⟨e,t,failed,fails t here⟩

end
end NoeDB.Fallible
