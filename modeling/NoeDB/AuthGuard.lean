import NoeDB.Execution
import Mathlib.Algebra.Ring.Nat

/-! Bans after failed authentications (noedb-grpc: auth_guard.rs). Times are nanoseconds;
a peer without an address is `none`. -/
namespace NoeDB.AuthGuard
open Execution

structure Guard where
  maxFailures : Nat
  window : Nat
  ban : Nat
  small : maxFailures < 2^32

structure Entry where
  failures : Nat
  first : Nat
  bannedUntil : Option Nat
  deriving DecidableEq, Repr

variable {Ip : Type} [DecidableEq Ip]

/- The map is looked up by the text of the address without its port. -/
def key (addr : Option (Ip × UInt16)) : Option Ip := addr.map Prod.fst

abbrev Entries (Ip : Type) := Option Ip → Option Entry

def isBanned (entries : Entries Ip) (addr : Option (Ip × UInt16)) (now : Nat) : Bool × Entries Ip :=
  match (entries (key addr)).bind Entry.bannedUntil with
  | none => (false,entries)
  | some stop => if now < stop then (true,entries) else (false,Function.update entries (key addr) none)

/- The entry that a failure is added to. -/
def counted (g : Guard) (entry : Option Entry) (now : Nat) : Entry :=
  let entry := entry.getD ⟨0,now,none⟩
  if g.window < now-entry.first then ⟨0,now,none⟩ else entry

def failed (g : Guard) (entry : Option Entry) (now : Nat) : Bool × Entry :=
  let entry := counted g entry now
  let failures := (entry.failures+1)%2^32
  if g.maxFailures ≤ failures then (true,⟨failures,entry.first,some (now+g.ban)⟩)
  else (false,⟨failures,entry.first,entry.bannedUntil⟩)

def recordFailure (g : Guard) (entries : Entries Ip) (addr : Option (Ip × UInt16)) (now : Nat) : Bool × Entries Ip :=
  let out := failed g (entries (key addr)) now
  (out.1,Function.update entries (key addr) (some out.2))

def recordSuccess (entries : Entries Ip) (addr : Option (Ip × UInt16)) : Entries Ip := Function.update entries (key addr) none

inductive Call (Ip : Type) where
  | isBanned (addr : Option (Ip × UInt16))
  | failure (addr : Option (Ip × UInt16))
  | success (addr : Option (Ip × UInt16))

/- The guard beside what has happened since the last success of each peer: when it has
failed, and up to when it is to be banned. -/
structure Traced (Ip : Type) where
  entries : Entries Ip
  now : Nat
  failures : Option Ip → List Nat
  promised : Option Ip → Nat

def Traced.new : Traced Ip := ⟨fun _ => none,0,fun _ => [],fun _ => 0⟩

def step (g : Guard) (t : Traced Ip) : Nat × Call Ip → Option (Traced Ip)
  | (now,.isBanned addr) => some { t with entries := (isBanned t.entries addr now).2, now }
  | (now,.success addr) => some ⟨recordSuccess t.entries addr,now,Function.update t.failures (key addr) [],
      Function.update t.promised (key addr) 0⟩
  | (now,.failure addr) =>
      let out := recordFailure g t.entries addr now
      some ⟨out.2,now,Function.update t.failures (key addr) (now :: t.failures (key addr)),
        Function.update t.promised (key addr) (if out.1 then now+g.ban else t.promised (key addr))⟩

def Right (g : Guard) (t : Traced Ip) : Nat × Call Ip → Prop
  | (now,.isBanned addr) => now < t.promised (key addr) → (isBanned t.entries addr now).1 = true
  | (now,.failure addr) => g.maxFailures ≤ 1+((t.failures (key addr)).filter (now ≤ ·+g.window)).length →
      (recordFailure g t.entries addr now).1 = true
  | (_,.success _) => True

/- The clock does not go back and the failures can be counted. An entry is given up, by a failure
after its window or by a look at a ban that is over, only where no ban is pending and all
failures since the last success are out of the window. -/
def Calm (g : Guard) (t : Traced Ip) (call : Nat × Call Ip) : Prop :=
  t.now ≤ call.1 ∧ match call.2 with
  | .isBanned addr => ∀ e ∈ t.entries (key addr), ∀ stop ∈ e.bannedUntil, stop ≤ call.1 →
      ∀ f ∈ t.failures (key addr), f+g.window < call.1
  | .failure addr => (t.failures (key addr)).length+1 < 2^32 ∧
      ∀ e ∈ t.entries (key addr), g.window < call.1-e.first →
        (∀ stop ∈ e.bannedUntil, stop ≤ call.1) ∧ ∀ f ∈ t.failures (key addr), f+g.window < call.1
  | .success _ => True

/- What the guard knows of one peer. -/
structure Kept (g : Guard) (now : Nat) (entry : Option Entry) (failures : List Nat) (promised : Nat) : Prop where
  ban : now < promised → ∃ e ∈ entry, g.maxFailures ≤ e.failures ∧ ∃ stop ∈ e.bannedUntil, promised ≤ stop
  count : (failures.filter (now ≤ ·+g.window)).length ≤ (entry.map Entry.failures).getD 0
  most : (entry.map Entry.failures).getD 0 ≤ failures.length

section
variable {g : Guard} {entry : Option Entry} {failures : List Nat} {promised now time : Nat}

theorem keptOn (kept : Kept g now entry failures promised) (due : now ≤ time) : Kept g time entry failures promised where
  ban waits := kept.ban (by omega)
  count := by
    refine Nat.le_trans ?_ kept.count
    rw [← List.countP_eq_length_filter,← List.countP_eq_length_filter]
    refine List.countP_mono_left fun f _ inside => ?_
    simp only [decide_eq_true_eq] at inside ⊢
    omega
  most := kept.most

theorem outside (out : ∀ f ∈ failures, f+g.window < now) : failures.filter (now ≤ ·+g.window) = [] := by
  refine List.filter_eq_nil_iff.mpr fun f mem => ?_
  have past := out f mem
  simp only [decide_eq_true_eq]
  omega

theorem countedKept (kept : Kept g now entry failures promised)
    (calm : ∀ e ∈ entry, g.window < now-e.first →
      (∀ stop ∈ e.bannedUntil, stop ≤ now) ∧ ∀ f ∈ failures, f+g.window < now) :
    (failures.filter (now ≤ ·+g.window)).length ≤ (counted g entry now).failures ∧
      (counted g entry now).failures ≤ failures.length ∧
      (now < promised → g.maxFailures ≤ (counted g entry now).failures) := by
  cases entry with
  | none =>
    refine ⟨by simpa [counted] using kept.count,by simp [counted],fun waits => ?_⟩
    obtain ⟨_,⟨⟩,_⟩ := kept.ban waits
  | some e =>
    by_cases reset : g.window < now-e.first
    · obtain ⟨past,out⟩ := calm e rfl reset
      refine ⟨by simp [outside out],by simp [counted,reset],fun waits => ?_⟩
      obtain ⟨_,⟨⟩,_,stop,held,least⟩ := kept.ban waits
      have := past stop held
      omega
    · simp only [counted,Option.getD_some,if_neg reset]
      refine ⟨kept.count,kept.most,fun waits => ?_⟩
      obtain ⟨_,⟨⟩,most,_⟩ := kept.ban waits
      exact most

end

section
variable {g : Guard} {t next : Traced Ip} {call : Nat × Call Ip}

def Sound (g : Guard) (t : Traced Ip) : Prop := ∀ k, Kept g t.now (t.entries k) (t.failures k) (t.promised k)

theorem stepSound (sound : Sound g t) (calm : Calm g t call) (done : step g t call = some next) : Sound g next := by
  have still := fun k => keptOn (sound k) calm.1
  obtain ⟨now,call⟩ := call
  obtain ⟨_,calm⟩ := calm
  cases call with
  | isBanned addr =>
    cases Option.some.inj done
    intro k
    simp only [isBanned]
    split
    · exact still k
    · rename_i stop held
      obtain ⟨e,entry,banned⟩ := Option.bind_eq_some_iff.mp held
      split
      · exact still k
      · rename_i past
        by_cases same : k = key addr
        · subst same
          simp only [Function.update_self]
          refine ⟨fun waits => ?_,by simp [outside (calm e entry stop banned (Nat.not_lt.mp past))],Nat.zero_le _⟩
          obtain ⟨_,entry',_,_,banned',least⟩ := (still _).ban waits
          cases entry.symm.trans entry'
          cases banned.symm.trans banned'
          omega
        · simpa [same] using still k
  | success addr =>
    cases Option.some.inj done
    intro k
    by_cases same : k = key addr
    · subst same
      simp only [recordSuccess,Function.update_self]
      exact ⟨nofun,Nat.zero_le _,Nat.zero_le _⟩
    · simpa [recordSuccess,same] using still k
  | failure addr =>
    cases Option.some.inj done
    intro k
    by_cases same : k = key addr
    · subst same
      obtain ⟨count,most,ban⟩ := countedKept (still _) calm.2
      simp only [recordFailure,failed,Nat.mod_eq_of_lt (Nat.lt_of_le_of_lt (Nat.succ_le_succ most) calm.1),
        Function.update_self]
      by_cases full : g.maxFailures ≤ (counted g (t.entries (key addr)) now).failures+1
      · simp only [if_pos full,if_true]
        exact ⟨fun _ => ⟨_,rfl,full,_,rfl,Nat.le_refl _⟩,by simpa using count,by simpa using most⟩
      · simp only [if_neg full,Bool.false_eq_true,if_false]
        exact ⟨fun waits => absurd (Nat.le_succ_of_le (ban waits)) full,by simpa using count,by simpa using most⟩
    · simpa [recordFailure,same] using still k

theorem soundRight (sound : Sound g t) (calm : Calm g t call) : Right g t call := by
  have still := fun k => keptOn (sound k) calm.1
  obtain ⟨now,call⟩ := call
  obtain ⟨_,calm⟩ := calm
  cases call with
  | isBanned addr =>
    intro waits
    obtain ⟨e,held,_,stop,banned,least⟩ := (still (key addr)).ban waits
    have found : (t.entries (key addr)).bind Entry.bannedUntil = some stop := Option.bind_eq_some_iff.mpr ⟨e,held,banned⟩
    simp only [isBanned,found]
    rw [if_pos (Nat.lt_of_lt_of_le waits least)]
  | success => trivial
  | failure addr =>
    intro many
    obtain ⟨count,most,_⟩ := countedKept (still _) calm.2
    simp only [recordFailure,failed,Nat.mod_eq_of_lt (Nat.lt_of_le_of_lt (Nat.succ_le_succ most) calm.1)]
    rw [if_pos (by simp only at count; omega)]

end

end NoeDB.AuthGuard
