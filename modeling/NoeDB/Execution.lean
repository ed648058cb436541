import Mathlib.Data.List.Basic

/-! Runs of a partial step function over an event list. A step that is not
possible in a state ends the run without a result. -/
namespace NoeDB.Execution
open Option
variable {σ ε : Type} (step : σ → ε → Option σ)

def run (s : σ) : List ε → Option σ
  | [] => some s
  | e :: rest => do
      let next ← step s e
      run next rest

def Admissible (ok : σ → ε → Prop) : σ → List ε → Prop
  | _,[] => True
  | s,e :: rest => ok s e ∧ ∀ next ∈ step s e, Admissible ok next rest

def Always (P : σ → Prop) : σ → List ε → Prop
  | s,[] => P s
  | s,e :: rest => P s ∧ ∀ next ∈ step s e, Always P next rest

def Linked (R : σ → σ → Prop) : σ → List ε → Prop
  | _,[] => True
  | s,e :: rest => ∀ next ∈ step s e, R s next ∧ Linked R next rest

instance decidableAdmissible (ok : σ → ε → Prop) [∀ s e, Decidable (ok s e)] :
    (s : σ) → (events : List ε) → Decidable (Admissible step ok s events)
  | _,[] => isTrue trivial
  | s,e :: rest =>
      have := fun next => decidableAdmissible ok next rest
      inferInstanceAs (Decidable (ok s e ∧ ∀ next ∈ step s e, Admissible step ok next rest))

instance decidableAlways (P : σ → Prop) [∀ s, Decidable (P s)] :
    (s : σ) → (events : List ε) → Decidable (Always step P s events)
  | s,[] => inferInstanceAs (Decidable (P s))
  | s,e :: rest =>
      have := fun next => decidableAlways P next rest
      inferInstanceAs (Decidable (P s ∧ ∀ next ∈ step s e, Always step P next rest))

variable {step}

theorem runCons (done : run step s (e :: rest) = some t) :
    ∃ next, step s e = some next ∧ run step next rest = some t := by
  simpa only [run,bind,bind_eq_some_iff] using done

theorem admissibleSplit (left : run step s first = some t) (all : Admissible step ok s (first ++ second)) :
    Admissible step ok s first ∧ Admissible step ok t second := by
  induction first generalizing s with
  | nil =>
    cases some.inj left
    exact ⟨trivial,all⟩
  | cons _ _ ih =>
    obtain ⟨next,one,more⟩ := runCons left
    obtain ⟨head,tail⟩ := all
    have parts := ih more (tail next one)
    refine ⟨⟨head,?_⟩,parts.2⟩
    intro _ same
    cases some.inj (one.symm.trans same)
    exact parts.1

theorem admissibleAll {allow : ε → Prop} (all : ∀ e ∈ events, allow e) (s) :
    Admissible step (fun _ e => allow e) s events := by
  induction events generalizing s with
  | nil => trivial
  | cons _ _ ih =>
    obtain ⟨here,later⟩ := List.forall_mem_cons.mp all
    exact ⟨here,fun next _ => ih later next⟩

theorem admissibleIff {ok ok'} {Inv : σ → Prop} (one : ∀ {s e}, Inv s → (ok s e ↔ ok' s e))
    (keeps : ∀ {s e next}, ok s e → step s e = some next → Inv next) {s events} (start : Inv s) :
    Admissible step ok s events ↔ Admissible step ok' s events := by
  induction events generalizing s with
  | nil => exact Iff.rfl
  | cons _ _ ih =>
    constructor
    · rintro ⟨here,later⟩
      exact ⟨(one start).mp here,fun next done => (ih (keeps here done)).mp (later next done)⟩
    · rintro ⟨here,later⟩
      have held := (one start).mpr here
      exact ⟨held,fun next done => (ih (keeps held done)).mpr (later next done)⟩

/- The invariant rule: what one admissible step preserves, every admissible run
preserves. -/
theorem runInvariant {ok} {Inv : σ → Prop} (preserved : ∀ s e next, Inv s → ok s e → step s e = some next → Inv next)
    {s t events} (start : Inv s) (all : Admissible step ok s events) (done : run step s events = some t) : Inv t := by
  induction events generalizing s with
  | nil =>
    cases some.inj done
    exact start
  | cons e _ ih =>
    obtain ⟨next,one,more⟩ := runCons done
    exact ih (preserved s e next start all.1 one) (all.2 next one) more

theorem runRelation {R : σ → σ → Prop} (refl : ∀ s, R s s)
    (trans : ∀ {a b c}, R a b → R b c → R a c) (one : ∀ {s e next}, step s e = some next → R s next) (done : run step s events = some t) : R s t := by
  induction events generalizing s with
  | nil =>
    cases some.inj done
    exact refl _
  | cons _ _ ih =>
    obtain ⟨_,first,more⟩ := runCons done
    exact trans (one first) (ih more)

theorem alwaysStart (all : Always step P s events) : P s := by
  cases events with
  | nil => exact all
  | cons => exact all.1

theorem alwaysInvariant {Inv P : σ → Prop}
    (preserved : ∀ s e next, Inv s → ok s e → step s e = some next → Inv next) (enough : ∀ s, Inv s → P s) (start : Inv s) (all : Admissible step ok s events) : Always step P s events := by
  induction events generalizing s with
  | nil => exact enough s start
  | cons e _ ih =>
    refine ⟨enough s start,fun next one => ?_⟩
    exact ih (preserved s e next start all.1 one) (all.2 next one)

theorem alwaysIff
    (one : ∀ {s e next}, P s → step s e = some next → (P next ↔ ok s e)) (start : P s) (done : run step s events = some t) :
    Always step P s events ↔ Admissible step ok s events := by
  induction events generalizing s with
  | nil => exact ⟨fun _ => trivial,fun _ => start⟩
  | cons _ _ ih =>
    obtain ⟨next,first,more⟩ := runCons done
    constructor
    · rintro ⟨_,later⟩
      have after := later next first
      have kept := alwaysStart after
      refine ⟨(one start first).mp kept,?_⟩
      intro other same
      cases some.inj (first.symm.trans same)
      exact (ih kept more).mp after
    · rintro ⟨here,later⟩
      have kept := (one start first).mpr here
      refine ⟨start,?_⟩
      intro _ same
      cases some.inj (first.symm.trans same)
      exact (ih kept more).mpr (later next first)

theorem linkedIff {Inv : σ → Prop} {allow : ε → Prop}
    (one : ∀ {s e next}, allow e → Inv s → step s e = some next → (R s next ↔ ok s e))
    (keeps : ∀ {s e next}, Inv s → step s e = some next → R s next → Inv next) (allowed : ∀ e ∈ events, allow e) (start : Inv s)
    (done : run step s events = some t) : Linked step R s events ↔ Admissible step ok s events := by
  induction events generalizing s with
  | nil => exact Iff.rfl
  | cons e _ ih =>
    obtain ⟨next,first,more⟩ := runCons done
    have exact' := one (allowed e List.mem_cons_self) start first
    have rest' := @ih next (fun e mem => allowed e (List.mem_cons_of_mem _ mem))
    constructor
    · intro linked
      obtain ⟨here,later⟩ := linked next first
      refine ⟨exact'.mp here,?_⟩
      intro other same
      cases some.inj (first.symm.trans same)
      exact (rest' (keeps start first here) more).mp later
    · rintro ⟨here,later⟩ _ same
      cases some.inj (first.symm.trans same)
      have related := exact'.mpr here
      exact ⟨related,(rest' (keeps start first related) more).mpr (later next first)⟩

end NoeDB.Execution
