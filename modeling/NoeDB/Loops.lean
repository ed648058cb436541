import Mathlib.Order.Lattice
import Mathlib.Data.Nat.Basic

/-! Two loops with fuel: halving an interval down to the point where a test stops
holding, and collecting the items that the passes of an iterator yield. -/
namespace NoeDB.Loops

def halve (test : Nat → Bool) : Nat → Nat → Nat → Nat
  | 0,lo,_ => lo
  | fuel+1,lo,hi =>
      if lo < hi then
        let mid := lo+(hi-lo)/2
        if test mid then halve test fuel (mid+1) hi else halve test fuel lo mid
      else lo

def partitionPoint (test : Nat → Bool) (n : Nat) : Nat := halve test n 0 n

theorem partitionBound (test n) : partitionPoint test n ≤ n := by
  have bound : ∀ {fuel lo hi}, lo ≤ hi → halve test fuel lo hi ≤ hi := by
    intro fuel
    induction fuel with
    | zero => exact id
    | succ _ ih =>
      intro _ _ ordered
      unfold halve
      split
      · simp only
        split
        · exact ih (by omega)
        · exact le_trans (ih (by omega)) (by omega)
      · exact ordered
  exact bound (Nat.zero_le n)

structure Parts (test : Nat → Bool) (n point : Nat) : Prop where
  bound : point ≤ n
  below : ∀ i < point, test i = true
  above : ∀ i, point ≤ i → i < n → test i = false

theorem halveParts (closed : ∀ i j, i ≤ j → j < n → test j = true → test i = true) (enough : hi-lo ≤ fuel) (ordered : lo ≤ hi) (inside : hi ≤ n)
    (below : ∀ i < lo, test i = true) (above : ∀ i, hi ≤ i → i < n → test i = false) :
    Parts test n (halve test fuel lo hi) := by
  induction fuel generalizing lo hi with
  | zero =>
    have met : lo = hi := by omega
    exact ⟨met ▸ inside,below,met ▸ above⟩
  | succ _ ih =>
    unfold halve
    split
    · rename_i apart
      simp only
      split
      · rename_i holds
        refine ih (by omega) (by omega) inside ?_ above
        intro i _
        exact closed i _ (by omega) (by omega) holds
      · rename_i fails
        refine ih (by omega) (by omega) (by omega) below ?_
        intro i large most
        cases held : test i with
        | false => rfl
        | true => exact absurd (closed _ i large most held) fails
    · rename_i met
      have same : lo = hi := by omega
      exact ⟨same ▸ inside,below,same ▸ above⟩

theorem partitionParts
    (closed : ∀ i j, i ≤ j → j < n → test j = true → test i = true) : Parts test n (partitionPoint test n) :=
  halveParts closed (by omega) (Nat.zero_le n) (le_refl n) (fun i small => absurd small (Nat.not_lt_zero i))
    fun i large most => absurd most (by omega)

inductive Pass (σ ι φ : Type) where
  | finished
  | failed (fault : φ) (next : σ)
  | item (i : ι) (next : σ)
  | again (next : σ)

def Pass.next? {σ ι φ : Type} : Pass σ ι φ → Option σ
  | .finished => none
  | .failed _ next | .item _ next | .again next => some next

section
variable {σ ι φ : Type} (pass : σ → Pass σ ι φ) (exhausted : φ)

/- All items up to the first failure. Running out of fuel is a failure as well. -/
def collect : Nat → σ → Except φ (List ι)
  | 0,_ => .error exhausted
  | fuel+1,s =>
      match pass s with
      | .finished => .ok []
      | .failed fault _ => .error fault
      | .item i next =>
          match collect fuel next with
          | .error fault => .error fault
          | .ok rest => .ok (i :: rest)
      | .again next => collect fuel next

inductive Runs : σ → List ι → Prop where
  | finished {s} (done : pass s = .finished) : Runs s []
  | item {s i next rest} (yields : pass s = .item i next) (later : Runs next rest) : Runs s (i :: rest)
  | again {s next rest} (moves : pass s = .again next) (later : Runs next rest) : Runs s rest

inductive Ends : σ → Prop where
  | finished {s} (done : (pass s).next? = none) : Ends s
  | moves {s next} (on : (pass s).next? = some next) (later : Ends next) : Ends s

def Descends (Sound : σ → Prop) (size : σ → Nat) : Prop :=
  ∀ {s next}, Sound s → (pass s).next? = some next → Sound next ∧ size next < size s

variable {pass} {Sound : σ → Prop} {size : σ → Nat} (descends : Descends pass Sound size)
include descends

theorem descendsEnds (sound : Sound s) : Ends pass s := by
  induction most : size s using Nat.strong_induction_on generalizing s with
  | _ n ih =>
    subst most
    cases on : (pass s).next? with
    | none => exact .finished on
    | some =>
      obtain ⟨inside,less⟩ := descends sound on
      exact .moves on (ih _ less inside rfl)

theorem fuelLeft {s next fuel} (sound : Sound s) (on : (pass s).next? = some next) (enough : size s < fuel+1) :
    Sound next ∧ size next < fuel := by
  obtain ⟨inside,less⟩ := descends sound on
  exact ⟨inside,Nat.lt_of_lt_of_le less (Nat.le_of_lt_succ enough)⟩

theorem collectNotExhausted (sound : Sound s) (enough : size s < fuel)
    (calm : ∀ {s next}, pass s ≠ .failed exhausted next) : collect pass exhausted fuel s ≠ .error exhausted := by
  induction fuel generalizing s with
  | zero => exact absurd enough (Nat.not_lt_zero _)
  | succ fuel ih =>
    have left := fun {next} => @fuelLeft _ _ _ _ _ _ descends s next fuel sound
    unfold collect
    cases stepped : pass s with
    | finished => simp
    | failed =>
      intro same
      exact calm (Except.error.inj same ▸ stepped)
    | item =>
      obtain ⟨inside,enough'⟩ := left (by rw [stepped]; rfl) enough
      have later := ih inside enough'
      simp only
      split
      · rename_i fault failed
        exact failed ▸ later
      · simp
    | again =>
      obtain ⟨inside,enough'⟩ := left (by rw [stepped]; rfl) enough
      exact ih inside enough'

theorem collectRuns (runs : Runs pass s items) (sound : Sound s) (enough : size s < fuel) :
    collect pass exhausted fuel s = .ok items := by
  induction runs generalizing fuel with
  | finished done =>
    obtain ⟨fuel,rfl⟩ : ∃ k, fuel = k+1 := ⟨fuel-1,by omega⟩
    simp [collect,done]
  | item yields _ ih | again yields _ ih =>
    obtain ⟨fuel,rfl⟩ : ∃ k, fuel = k+1 := ⟨fuel-1,by omega⟩
    obtain ⟨inside,enough⟩ := fuelLeft descends sound (by rw [yields]; rfl) enough
    simp [collect,yields,ih inside enough]

end
end NoeDB.Loops
