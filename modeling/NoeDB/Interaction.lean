import Mathlib.Logic.Basic

/-! Scripts that ask a store for operations. A script is played against a handler of the
operations; two handlers that answer alike make every script end alike. -/
namespace NoeDB.Interaction

structure Signature where
  Op : Type
  Answer : Op → Type

inductive Script (S : Signature) (ε α : Type) where
  | done (a : α)
  | fail (e : ε)
  | ask (op : S.Op) (next : S.Answer op → Script S ε α)

variable {S : Signature} {ε α β σ τ : Type}

namespace Script

def bind : Script S ε α → (α → Script S ε β) → Script S ε β
  | .done a,f => f a
  | .fail e,_ => .fail e
  | .ask op next,f => .ask op fun a => (next a).bind f

instance : Monad (Script S ε) where
  pure := .done
  bind := .bind

def ofExcept : Except ε α → Script S ε α
  | .ok a => .done a
  | .error e => .fail e

def call (op : S.Op) : Script S ε (S.Answer op) := .ask op .done

def forEach {γ : Type} (f : γ → Script S ε Unit) : List γ → Script S ε Unit
  | [] => .done ()
  | c :: rest => (f c).bind fun _ => forEach f rest

end Script

abbrev Handler (S : Signature) (ε σ : Type) := (op : S.Op) → σ → Except ε (S.Answer op) × σ

def play (handle : Handler S ε σ) : Script S ε α → σ → Except ε α × σ
  | .done a,s => (.ok a,s)
  | .fail e,s => (.error e,s)
  | .ask op next,s =>
      match handle op s with
      | (.ok a,t) => play handle (next a) t
      | (.error e,t) => (.error e,t)

theorem playBind (handle script) (f : α → Script S ε β) (s : σ) :
    play handle (script >>= f) s = match play handle script s with
      | (.ok a,t) => play handle (f a) t
      | (.error e,t) => (.error e,t) := by
  induction script generalizing s with
  | done => rfl
  | fail => rfl
  | ask op next ih =>
    show play handle (.ask op fun a => (next a).bind f) s = _
    simp only [play]
    cases handle op s with
    | mk result t =>
      cases result with
      | error => rfl
      | ok a => exact ih a t

theorem playBindCases {script : Script S ε α} {f : α → Script S ε β} {s t : σ}
    (played : play handle (script >>= f) s = (result,t)) :
    (∃ e, play handle script s = (.error e,t) ∧ result = .error e) ∨
      ∃ a u, play handle script s = (.ok a,u) ∧ play handle (f a) u = (result,t) := by
  rw [playBind] at played
  split at played
  · exact .inr ⟨_,_,by assumption,played⟩
  · cases played
    exact .inl ⟨_,by assumption,rfl⟩

theorem bindAssoc {γ : Type} (script) (f : α → Script S ε β) (g : β → Script S ε γ) :
    script >>= f >>= g = script >>= fun a => f a >>= g := by
  induction script with
  | done => rfl
  | fail => rfl
  | ask op _ ih => exact congrArg (Script.ask op) (funext ih)

@[simp] theorem playCall (handle : Handler S ε σ) (op s) : play handle (Script.call op) s = handle op s := by
  unfold Script.call play
  cases handle op s with
  | mk result => cases result <;> rfl

theorem playForEachFails {γ : Type} {handle} {f : γ → Script S ε Unit} {c rest} {s t : σ}
    {e} (failed : play handle (f c) s = (.error e,t)) : play handle (Script.forEach f (c :: rest)) s = (.error e,t) := by
  show play handle (f c >>= fun _ => Script.forEach f rest) s = _
  rw [playBind,failed]

def steps (handle : Handler S ε σ) : Script S ε α → σ → Nat
  | .done _,_ => 0
  | .fail _,_ => 0
  | .ask op next,s =>
      match handle op s with
      | (.ok a,t) => steps handle (next a) t+1
      | (.error _,_) => 1

def trace (handle : Handler S ε σ) : Script S ε α → σ → List S.Op
  | .done _,_ => []
  | .fail _,_ => []
  | .ask op next,s =>
      match handle op s with
      | (.ok a,t) => op :: trace handle (next a) t
      | (.error _,_) => []

def Throughout (holds : σ → S.Op → Prop) (handle : Handler S ε σ) : Script S ε α → σ → Prop
  | .done _,_ => True
  | .fail _,_ => True
  | .ask op next,s => holds s op ∧
      match handle op s with
      | (.ok a,t) => Throughout holds handle (next a) t
      | (.error _,_) => True

theorem throughoutCall {handle : Handler S ε σ} (here : holds s op) : Throughout holds handle (Script.call op) s := by
  simp only [Script.call,Throughout]
  refine ⟨here,?_⟩
  split <;> exact trivial

theorem playKeeps {handle holds} {related : σ → τ → Prop} {act}
    (ok : ∀ {op s t a u}, holds s op → related s t → handle op s = (.ok a,u) → related u (act t op))
    (error : ∀ {op s t e u}, holds s op → related s t → handle op s = (.error e,u) → related u t)
    {script : Script S ε α} {s t} (throughout : Throughout holds handle script s) (start : related s t) :
    related (play handle script s).2 ((trace handle script s).foldl act t) := by
  induction script generalizing s t with
  | done | fail => exact start
  | ask op _ ih =>
    simp only [Throughout] at throughout
    obtain ⟨here,later⟩ := throughout
    simp only [play,trace]
    cases ran : handle op s with
    | mk result =>
      rw [ran] at later
      cases result with
      | error => exact error here start ran
      | ok a => exact ih a later (ok here start ran)

def Only (allow : S.Op → Prop) : Script S ε α → Prop
  | .done _ => True
  | .fail _ => True
  | .ask op next => allow op ∧ ∀ a, Only allow (next a)

section
variable {allow : S.Op → Prop}

theorem onlyBind {f : α → Script S ε β} (first : Only allow script)
    (then' : ∀ a, Only allow (f a)) : Only allow (script >>= f) := by
  induction script with
  | done a => exact then' a
  | fail => trivial
  | ask _ _ ih => exact ⟨first.1,fun a => ih a (first.2 a)⟩

theorem onlyExcept (result) : Only allow (Script.ofExcept result : Script S ε α) := by
  cases result <;> trivial

theorem onlyCall (here : allow op) : Only allow (Script.call op : Script S ε (S.Answer op)) := ⟨here,fun _ => trivial⟩

theorem onlyForEach {γ : Type} {f : γ → Script S ε Unit} (each : ∀ c, Only allow (f c)) (items : List γ) :
    Only allow (Script.forEach f items) := by
  induction items with
  | nil => trivial
  | cons c _ ih => exact onlyBind (each c) fun _ => ih

theorem playOnly {kept : σ → σ → Prop} (refl : ∀ s, kept s s)
    (trans : ∀ {a b c}, kept a b → kept b c → kept a c) (one : ∀ {op} s, allow op → kept s (handle op s).2)
    {script : Script S ε α} (only : Only allow script) (s) : kept s (play handle script s).2 := by
  induction script generalizing s with
  | done | fail => exact refl s
  | ask op _ ih =>
    have first := one s only.1
    simp only [play]
    cases ran : handle op s with
    | mk result t =>
      rw [ran] at first
      cases result with
      | error => exact first
      | ok a => exact trans first (ih a (only.2 a) t)

end

/- What is known of the operations: when each may be asked for, and which answers and
states it can then give. -/
structure Rules (S : Signature) (τ : Type) where
  may : S.Op → τ → Prop
  does : (op : S.Op) → τ → S.Answer op → τ → Prop

def Leads (rules : Rules S τ) (good : α → τ → Prop) (bad : ε → τ → Prop) : Script S ε α → τ → Prop
  | .done a,t => good a t
  | .fail e,t => bad e t
  | .ask op next,t => rules.may op t ∧ ∀ a u, rules.does op t a u → Leads rules good bad (next a) u

section
variable {rules : Rules S τ} {good : α → τ → Prop} {bad : ε → τ → Prop} {t : τ}

theorem leadsMono (leads : Leads rules good bad script t) (better : ∀ a u, good a u → other a u)
    (fails : ∀ e u, bad e u → worse e u) : Leads rules other worse script t := by
  induction script generalizing t with
  | done a => exact better a t leads
  | fail e => exact fails e t leads
  | ask _ _ ih => exact ⟨leads.1,fun a u answered => ih a (leads.2 a u answered)⟩

theorem leadsBind {f : β → Script S ε α} : Leads rules good bad (script >>= f) t ↔
    Leads rules (fun b u => Leads rules good bad (f b) u) bad script t := by
  induction script generalizing t with
  | done | fail => exact Iff.rfl
  | ask op next ih =>
    have each : ∀ a u, Leads rules good bad ((next a).bind f) u ↔ _ := fun a u => @ih a u
    show (rules.may op t ∧ ∀ a u, rules.does op t a u → Leads rules good bad ((next a).bind f) u) ↔ _
    simp [each,Leads]

end

structure Refines (handle : Handler S ε σ) (rules : Rules S τ) (related : σ → τ → Prop) (size : σ → Nat)
    (limit : Nat) (stops : ε → Prop) : Prop where
  grows : ∀ op s, size (handle op s).2 ≤ size s+1
  step : ∀ op s t, size s < limit → related s t → rules.may op t →
    (∃ e u, handle op s = (.error e,u) ∧ stops e) ∨
      ∃ a u v, handle op s = (.ok a,u) ∧ rules.does op t a v ∧ related u v

theorem playLeads (refines : Refines handle rules related size limit stops) {script : Script S ε α} {s : σ} {t : τ} (leads : Leads rules good bad script t) (start : related s t)
    (enough : size s+steps handle script s ≤ limit) : (∃ e u, play handle script s = (.error e,u) ∧ stops e) ∨
      ∃ u v, related u v ∧ ((∃ a, play handle script s = (.ok a,u) ∧ good a v) ∨
        ∃ e, play handle script s = (.error e,u) ∧ bad e v) := by
  induction script generalizing s t with
  | done a => exact .inr ⟨s,t,start,.inl ⟨a,rfl,leads⟩⟩
  | fail e => exact .inr ⟨s,t,start,.inr ⟨e,rfl,leads⟩⟩
  | ask op _ ih =>
    simp only [play]
    simp only [steps] at enough
    have room : size s < limit := by
      split at enough <;> omega
    rcases refines.step op s t room start leads.1 with ⟨e,u,failed,stop⟩ | ⟨a,u,v,answered,does,kept⟩
    · simp only [failed]
      exact .inl ⟨e,u,rfl,stop⟩
    · have larger : size u ≤ size s+1 := by
        have bound := refines.grows op s
        rwa [answered] at bound
      simp only [answered] at enough
      simp only [answered]
      exact ih a (leads.2 a v does) kept (by omega)

end NoeDB.Interaction
