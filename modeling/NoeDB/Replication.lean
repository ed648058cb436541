import Mathlib.Logic.Relation
import NoeDB.Majority
import NoeDB.TermLedger

/-! Replication by terms, without messages. Members advance through terms; one that
stands in a term collects votes from members whose logs are not ahead of its own,
and with a majority opens the ledger of the term; others adopt pieces of a ledger
and acknowledge what they hold of it. A member that adopts never gives up what its
log already shares with the ledger.

An index of a ledger is chosen when a majority acknowledged it. The invariant speaks
of indices that can still become chosen: every later ledger, every log that
acknowledged and every candidate that got a vote from such a log holds them. -/
namespace NoeDB.Replication
open TermLedger List Function Nat

structure State (ν E : Type) where
  cur : ν → Nat
  log : ν → List E
  led : Nat → List E
  cand : ν → Nat → List E
  voted : Nat → ν → ν → Prop
  reach : ν → Nat → Nat

section
variable {E : Type} (term : E → Nat)

def lastTerm (log : List E) : Nat :=
  match log[log.length - 1]? with
  | some e => term e
  | none => 0

def UpToDate (a b : List E) : Prop :=
  lastTerm term b < lastTerm term a ∨ (lastTerm term a = lastTerm term b ∧ b.length ≤ a.length)

variable {term}

theorem lastEntry {log} (some : log ≠ []) : ∃ e, log[log.length - 1]? = Option.some e ∧ term e = lastTerm term log := by
  have inside : log.length - 1 < log.length := by
    have := length_pos_iff.mpr some
    omega
  refine ⟨log[log.length - 1],List.getElem?_eq_getElem inside,?_⟩
  simp [lastTerm,List.getElem?_eq_getElem inside]

theorem lastTermPositive {log} (positive : 0 < lastTerm term log) : log ≠ [] := by
  intro empty
  subst empty
  exact lt_irrefl 0 positive

theorem wholeLog {log} (own : Consistent term led log)
    (some : log ≠ []) : log = (led (lastTerm term log)).take log.length := by
  obtain ⟨e,last,stamp⟩ : ∃ e, log[log.length - 1]? = Option.some e ∧ term e = lastTerm term log := lastEntry some
  have cut := own _ e last
  have length : log.length - 1 + 1 = log.length := Nat.sub_add_cancel (length_pos_iff.mpr some)
  rw [length,take_length,stamp] at cut
  exact cut

end

section
variable {ν E : Type} [DecidableEq ν] (term : E → Nat) (members : List ν)

namespace State
variable (s : State ν E)

def advance (v : ν) (t : Nat) : State ν E := {s with cur := update s.cur v t}

def stand (x : ν) (t : Nat) : State ν E :=
  {s with cand := update s.cand x (update (s.cand x) t (s.log x))}

def vote (v x : ν) (t : Nat) : State ν E :=
  {s with voted := fun t' v' x' => s.voted t' v' x' ∨ (t' = t ∧ v' = v ∧ x' = x)}

def elect (x : ν) (t : Nat) : State ν E := {s with led := update s.led t (s.cand x t)}

def write (t : Nat) (e : E) : State ν E := {s with led := update s.led t (s.led t ++ [e])}

def adopt (v : ν) (log : List E) : State ν E := {s with log := update s.log v log}

def ack (v : ν) (t i : Nat) : State ν E :=
  {s with reach := update s.reach v (update (s.reach v) t (max (s.reach v t) i))}

end State

theorem updatedCases {α : Type} (f : ν → Nat → α) (x t value y u) : update f x (update (f x) t value) y u = f y u ∨
      (y = x ∧ u = t ∧ update f x (update (f x) t value) y u = value) := by
  by_cases who : y = x
  · subst who
    rw [update_self]
    by_cases when : u = t
    · subst when
      exact .inr ⟨rfl,rfl,update_self ..⟩
    · exact .inl (update_of_ne when _ _)
  · exact .inl (by rw [update_of_ne who])

theorem standOther {s : State ν E} (fresh : s.cand x t = []) (some : s.cand y u ≠ []) :
    (s.stand x t).cand y u = s.cand y u := by
  rcases updatedCases s.cand x t (s.log x) y u with same | ⟨rfl,rfl,_⟩
  · exact same
  · exact absurd fresh some

inductive Step (s : State ν E) : State ν E → Prop where
  | advance {v t} (up : s.cur v ≤ t) : Step s (s.advance v t)
  | stand {x t} (now : s.cur x = t) (fresh : s.cand x t = []) : Step s (s.stand x t)
  | vote {v x t} (now : s.cur v = t) (ran : s.cand x t ≠ [])
      (upToDate : UpToDate term (s.cand x t) (s.log v)) : Step s (s.vote v x t)
  | elect {x t} (fresh : s.led t = []) (majority : ∃ group, Majority.Holds members group ∧
      ∀ v ∈ group, s.voted t v x) : Step s (s.elect x t)
  | write {t e} (opened : s.led t ≠ []) (stamp : term e = t) : Step s (s.write t e)
  | adopt {v t log} (now : s.cur v = t) (opened : s.led t ≠ []) (front : log <+: s.led t)
      (keeps : ∀ p, p <+: s.log v → p <+: s.led t → p <+: log) : Step s (s.adopt v log)
  | ack {v t i} (now : s.cur v = t) (inside : i ≤ (s.led t).length)
      (holds : (s.led t).take i <+: s.log v) : Step s (s.ack v t i)

def Steps : State ν E → State ν E → Prop := Relation.ReflTransGen (Step term members)

def Own (s : State ν E) (t k : Nat) : Prop := ∃ e, (s.led t)[k]? = some e ∧ term e = t

def Chosen (s : State ν E) (t k : Nat) : Prop :=
  ∃ group, Majority.Holds members group ∧ ∀ v ∈ group, k < s.reach v t

def Live (s : State ν E) (t k : Nat) : Prop :=
  Own term s t k ∧
    ∃ group, Majority.Holds members group ∧ ∀ v ∈ group, k < s.reach v t ∨ s.cur v ≤ t

structure Sound (s : State ν E) : Prop where
  coherent : Coherent term s.led
  bounded : ∀ {t j : Nat} {e}, (s.led t)[j]? = some e → term e ≤ t
  logs : ∀ v, Consistent term s.led (s.log v)
  logTerms : ∀ {v} {j : Nat} {e}, (s.log v)[j]? = some e → term e ≤ s.cur v
  cands : ∀ x t, Consistent term s.led (s.cand x t)
  candTerms : ∀ {x} {t j : Nat} {e}, (s.cand x t)[j]? = some e → term e ≤ t
  stood : ∀ {x t}, s.cand x t ≠ [] → t ≤ s.cur x
  cast : ∀ {t v x}, s.voted t v x → t ≤ s.cur v ∧ s.cand x t ≠ []
  reached : ∀ {v t}, 0 < s.reach v t → t ≤ s.cur v
  inside : ∀ v t, s.reach v t ≤ (s.led t).length
  elected : ∀ {t}, 0 < t → s.led t ≠ [] →
    ∃ group, Majority.Holds members group ∧ ∀ v ∈ group, t ≤ s.cur v
  trusted : ∀ {t' v x}, s.voted t' v x → ∀ {t k}, t < t' → Live term members s t k →
    k < s.reach v t → (s.led t).take (k+1) <+: s.cand x t'
  retained : ∀ {v t k}, Live term members s t k → k < s.reach v t →
    (s.led t).take (k+1) <+: s.log v
  complete : ∀ {t t' k}, t < t' → s.led t' ≠ [] → Live term members s t k →
    (s.led t).take (k+1) <+: s.led t'

end

section
variable {ν E : Type} {term : E → Nat} {members : List ν} {s s' : State ν E} {t k : Nat}

theorem Own.length (own : Own term s t k) : k < (s.led t).length := by
  obtain ⟨e,found,_⟩ := own
  by_contra beyond
  rw [List.getElem?_eq_none (by omega)] at found
  cases found

structure Later (s s' : State ν E) : Prop where
  led : Grows s.led s'.led
  reach : ∀ v t, s.reach v t ≤ s'.reach v t
  voted : ∀ {t v x}, s.voted t v x → s'.voted t v x
  cand : ∀ {x t}, s.cand x t ≠ [] → s'.cand x t = s.cand x t

theorem laterRefl (s : State ν E) : Later s s :=
  ⟨fun _ => List.prefix_rfl,fun _ _ => le_refl _,fun voted => voted,fun _ => rfl⟩

theorem Later.trans {s₁ s₂ s₃ : State ν E} (first : Later s₁ s₂) (second : Later s₂ s₃) : Later s₁ s₃ where
  led := fun t => (first.led t).trans (second.led t)
  reach := fun v t => (first.reach v t).trans (second.reach v t)
  voted := fun voted => second.voted (first.voted voted)
  cand := by
    intro x t some
    have same := first.cand some
    rw [second.cand (same ▸ some),same]

variable [DecidableEq ν]

/- The vote rule: a candidate whose log is not behind holds what the voter must not
lose. Its last entry is of the same term, and then it extends the voter's log; or it
comes from a later ledger, which is complete. -/
theorem upToDateKeeps (inv : Sound term members s) {a} {v t k}
    (own : Consistent term s.led a) (live : Live term members s t k)
    (holds : (s.led t).take (k+1) <+: s.log v) (upToDate : UpToDate term a (s.log v)) : (s.led t).take (k+1) <+: a := by
  have inside := live.1.length
  obtain ⟨e,found,stamp⟩ := live.1
  have size : ((s.led t).take (k+1)).length = k+1 := by
    rw [length_take]
    omega
  have some : s.log v ≠ [] := by
    intro empty
    rw [empty,List.prefix_nil] at holds
    rw [holds] at size
    cases size
  have voter := wholeLog (inv.logs v) some
  have reaches := holds.length_le
  have atVoter : (s.led (lastTerm term (s.log v)))[k]? = Option.some e := by
    have same := congrArg (fun l : List E => l[k]?) (List.prefix_iff_eq_take.mp holds)
    simp only [size,List.getElem?_take,lt_succ_self,if_true,found] at same
    have here := congrArg (fun l : List E => l[k]?) voter
    simp only [List.getElem?_take,if_pos (show k < (s.log v).length by omega)] at here
    rw [← here,← same]
  have late : t ≤ lastTerm term (s.log v) := stamp ▸ inv.bounded atVoter
  rcases upToDate with later | ⟨same,longer⟩
  · have nonempty : a ≠ [] := lastTermPositive (lt_of_le_of_lt (zero_le _) later)
    have whole := wholeLog own nonempty
    obtain ⟨f,last,lastStamp⟩ : ∃ f, a[a.length - 1]? = Option.some f ∧ term f = lastTerm term a := lastEntry nonempty
    have opened : s.led (lastTerm term a) ≠ [] := by
      intro empty
      rw [empty,take_nil] at whole
      exact nonempty whole
    have front := inv.complete (by omega) opened live
    have long : k < a.length := by
      by_contra short
      have before : a.length - 1 < k+1 := by omega
      have fromLedger := own.atLedger last
      rw [lastStamp] at fromLedger
      have shared := congrArg (fun l : List E => l[a.length-1]?) (List.prefix_iff_eq_take.mp front)
      simp only [size,List.getElem?_take,if_pos before] at shared
      rw [← shared] at fromLedger
      have early := inv.bounded fromLedger
      omega
    rw [whole,List.prefix_iff_eq_take.mp front,size]
    exact List.take_prefix_take_left (by omega)
  · have nonempty : a ≠ [] := by
      intro empty
      rw [empty,length_nil,le_zero,length_eq_zero_iff] at longer
      exact some longer
    have whole := wholeLog own nonempty
    refine holds.trans ?_
    rw [whole,voter,same]
    exact List.take_prefix_take_left (by omega)

theorem Sound.advance (inv : Sound term members s) {v t} (up : s.cur v ≤ t) : Sound term members (s.advance v t) := by
  have grown : ∀ w, s.cur w ≤ (s.advance v t).cur w := by
    intro w
    by_cases same : w = v
    · subst same
      simpa only [State.advance,update_self] using up
    · simp [State.advance,update_of_ne same]
  have live : ∀ {u k}, Live term members (s.advance v t) u k → Live term members s u k := by
    rintro u k ⟨own,group,majority,all⟩
    refine ⟨own,group,majority,fun w mem => ?_⟩
    exact (all w mem).imp_right (fun low => (grown w).trans low)
  exact {inv with
    logTerms := fun found => (inv.logTerms found).trans (grown _)
    stood := fun some => (inv.stood some).trans (grown _)
    cast := fun voted => ⟨(inv.cast voted).1.trans (grown _),(inv.cast voted).2⟩
    reached := fun positive => (inv.reached positive).trans (grown _)
    elected := by
      intro u positive opened
      obtain ⟨group,majority,all⟩ := inv.elected positive opened
      exact ⟨group,majority,fun w mem => (all w mem).trans (grown w)⟩
    trusted := fun voted _ _ before alive held => inv.trusted voted before (live alive) held
    retained := fun alive held => inv.retained (live alive) held
    complete := fun before opened alive => inv.complete before opened (live alive)
  }

theorem Sound.stand (inv : Sound term members s) (now : s.cur x = t)
    (fresh : s.cand x t = []) : Sound term members (s.stand x t) := by
  have cases : ∀ y u, (s.stand x t).cand y u = s.cand y u ∨
      (y = x ∧ u = t ∧ (s.stand x t).cand y u = s.log x) := updatedCases s.cand x t _
  exact {inv with
    cands := by
      intro y u
      rcases cases y u with same | ⟨_,_,new⟩
      · rw [same]
        exact inv.cands y u
      · rw [new]
        exact inv.logs x
    candTerms := by
      intro y u j e found
      rcases cases y u with same | ⟨_,when,new⟩
      · rw [same] at found
        exact inv.candTerms found
      · rw [new] at found
        rw [when,← now]
        exact inv.logTerms found
    stood := by
      intro y u some
      rcases cases y u with same | ⟨who,when,_⟩
      · rw [same] at some
        exact inv.stood some
      · rw [who,when]
        exact le_of_eq now.symm
    cast := by
      intro u v y voted
      have old := inv.cast voted
      exact ⟨old.1,by rw [standOther fresh old.2]; exact old.2⟩
    trusted := by
      intro u v y voted t k before live held
      rw [standOther fresh (inv.cast voted).2]
      exact inv.trusted voted before live held
  }

theorem Sound.vote (inv : Sound term members s) {v x t} (now : s.cur v = t)
    (ran : s.cand x t ≠ []) (upToDate : UpToDate term (s.cand x t) (s.log v)) : Sound term members (s.vote v x t) :=
  {inv with
    cast := by
      rintro u w y (old | ⟨rfl,rfl,rfl⟩)
      · exact inv.cast old
      · exact ⟨le_of_eq now.symm,ran⟩
    trusted := by
      rintro u w y (old | ⟨rfl,rfl,rfl⟩) t k before live held
      · exact inv.trusted old before live held
      · exact upToDateKeeps inv (inv.cands _ _) live (inv.retained live held) upToDate}

theorem Live.reachedBy (live : Live term members s t k) {t' group}
    (majority : Majority.Holds members group) (gone : ∀ v ∈ group, t' ≤ s.cur v) (before : t < t') :
    ∃ v ∈ group, k < s.reach v t := by
  obtain ⟨_,_,also,all⟩ := live
  obtain ⟨v,_,left,right⟩ := Majority.meet majority also
  have late := gone v left
  refine ⟨v,left,(all v right).resolve_right ?_⟩
  omega

theorem Sound.elect (inv : Sound term members s) (fresh : s.led t = [])
    (majority : ∃ group, Majority.Holds members group ∧ ∀ v ∈ group, s.voted t v x) :
    Sound term members (s.elect x t) := by
  have grows : Grows s.led (s.elect x t).led := growsUpdate (fresh ▸ List.nil_prefix)
  have same : ∀ {u}, u ≠ t → (s.elect x t).led u = s.led u := fun other => update_of_ne other _ _
  have here : (s.elect x t).led t = s.cand x t := update_self ..
  have live : ∀ {u k}, Live term members (s.elect x t) u k → u ≠ t ∧ Live term members s u k := by
    rintro u k ⟨⟨e,found,stamp⟩,possible⟩
    by_cases when : u = t
    · subst when
      rw [here] at found
      have reaches := (inv.cands x u).reaches found
      rw [stamp,fresh] at reaches
      cases reaches
    · rw [same when] at found
      exact ⟨when,⟨e,found,stamp⟩,possible⟩
  exact {inv with
    coherent := coherentStart inv.coherent fresh (inv.cands x t)
    bounded := by
      intro u j e found
      by_cases when : u = t
      · subst when
        rw [here] at found
        exact inv.candTerms found
      · rw [same when] at found
        exact inv.bounded found
    logs := fun v => (inv.logs v).grow grows
    cands := fun y u => (inv.cands y u).grow grows
    inside := fun v u => (inv.inside v u).trans (grows u).length_le
    elected := by
      intro u positive opened
      by_cases when : u = t
      · subst when
        obtain ⟨group,holds,all⟩ := majority
        exact ⟨group,holds,fun v mem => (inv.cast (all v mem)).1⟩
      · rw [same when] at opened
        exact inv.elected positive opened
    trusted := by
      intro u v y voted t k before alive held
      obtain ⟨other,old⟩ := live alive
      rw [same other]
      exact inv.trusted voted before old held
    retained := by
      intro v u k alive held
      obtain ⟨other,old⟩ := live alive
      rw [same other]
      exact inv.retained old held
    complete := by
      intro u u' k before opened alive
      obtain ⟨other,old⟩ := live alive
      rw [same other]
      by_cases when : u' = t
      · subst when
        obtain ⟨_,holds,all⟩ := majority
        obtain ⟨v,mem,held⟩ := old.reachedBy holds (fun v mem => (inv.cast (all v mem)).1) before
        rw [here]
        exact inv.trusted (all v mem) before old held
      · rw [same when] at opened ⊢
        exact inv.complete before opened old
  }

theorem Sound.write (inv : Sound term members s) {t e} (opened : s.led t ≠ []) (stamp : term e = t) :
    Sound term members (s.write t e) := by
  have grows : Grows s.led (s.write t e).led := growsUpdate (List.prefix_append _ _)
  have same : ∀ {u}, u ≠ t → (s.write t e).led u = s.led u := fun other => update_of_ne other _ _
  have here : (s.write t e).led t = s.led t ++ [e] := update_self ..
  have short : ∀ {u k}, k < (s.led u).length → ((s.write t e).led u).take (k+1) = (s.led u).take (k+1) ∧
        ((s.write t e).led u)[k]? = (s.led u)[k]? := by
    intro u k inside
    obtain ⟨_,eq⟩ := grows u
    rw [← eq]
    exact ⟨take_append_of_le_length inside,List.getElem?_append_left inside⟩
  have live : ∀ {u k}, k < (s.led u).length → Live term members (s.write t e) u k →
      Live term members s u k := by
    rintro u k inside ⟨⟨f,found,own⟩,possible⟩
    rw [(short inside).2] at found
    exact ⟨⟨f,found,own⟩,possible⟩
  have begun : ∀ {u}, (s.write t e).led u ≠ [] → s.led u ≠ [] := by
    intro u some
    by_cases when : u = t
    · exact when ▸ opened
    · rwa [same when] at some
  exact {inv with
    coherent := coherentWrite inv.coherent stamp
    bounded := by
      intro u j f found
      by_cases when : u = t
      · subst when
        rw [here] at found
        rcases mem_append.mp (mem_of_getElem? found) with old | new
        · obtain ⟨i,at'⟩ := mem_iff_getElem?.mp old
          exact inv.bounded at'
        · rw [mem_singleton.mp new,stamp]
      · rw [same when] at found
        exact inv.bounded found
    logs := fun v => (inv.logs v).grow grows
    cands := fun y u => (inv.cands y u).grow grows
    inside := fun v u => (inv.inside v u).trans (grows u).length_le
    elected := fun positive some => inv.elected positive (begun some)
    trusted := by
      intro u v y voted t k before alive held
      have inside := lt_of_lt_of_le held (inv.inside v t)
      rw [(short inside).1]
      exact inv.trusted voted before (live inside alive) held
    retained := by
      intro v u k alive held
      have inside := lt_of_lt_of_le held (inv.inside v u)
      rw [(short inside).1]
      exact inv.retained (live inside alive) held
    complete := by
      intro u u' k before some alive
      have old := begun some
      obtain ⟨_,majority,gone⟩ := inv.elected (by omega) old
      obtain ⟨v,_,held⟩ := Live.reachedBy alive majority gone before
      have inside : k < (s.led u).length := lt_of_lt_of_le held (inv.inside v u)
      rw [(short inside).1]
      exact (inv.complete before old (live inside alive)).trans (grows u')
  }

theorem Sound.adopt (inv : Sound term members s) {v t log} (now : s.cur v = t)
    (opened : s.led t ≠ []) (front : log <+: s.led t) (keeps : ∀ p, p <+: s.log v → p <+: s.led t → p <+: log) :
    Sound term members (s.adopt v log) := by
  have cases : ∀ w, (w ≠ v ∧ (s.adopt v log).log w = s.log w) ∨ (w = v ∧ (s.adopt v log).log w = log) := by
    intro w
    by_cases same : w = v
    · subst same
      exact .inr ⟨rfl,update_self ..⟩
    · exact .inl ⟨same,update_of_ne same _ _⟩
  exact {inv with
    logs := by
      intro w
      rcases cases w with ⟨_,same⟩ | ⟨_,new⟩
      · rw [same]
        exact inv.logs w
      · rw [new]
        exact (inv.coherent t).ofPrefix front
    logTerms := by
      intro w j e found
      rcases cases w with ⟨_,same⟩ | ⟨who,new⟩
      · rw [same] at found
        exact inv.logTerms found
      · rw [new] at found
        obtain ⟨_,eq⟩ := front
        have inside : j < log.length := by
          by_contra beyond
          rw [List.getElem?_eq_none (by omega)] at found
          cases found
        have ledger : (s.led t)[j]? = some e := by
          rw [← eq,List.getElem?_append_left inside]
          exact found
        show term e ≤ s.cur w
        rw [who,now]
        exact inv.bounded ledger
    retained := by
      intro w u k live held
      have old := inv.retained live held
      rcases cases w with ⟨_,same⟩ | ⟨who,new⟩
      · rw [same]
        exact old
      · rw [new]
        subst who
        have reached := inv.reached (lt_of_le_of_lt (zero_le _) held)
        refine keeps _ old ?_
        rcases lt_or_eq_of_le (now ▸ reached) with before | same
        · exact inv.complete before opened live
        · subst same
          exact List.take_prefix _ _
  }

theorem Sound.ack (inv : Sound term members s) {v t i} (now : s.cur v = t)
    (inside : i ≤ (s.led t).length) (holds : (s.led t).take i <+: s.log v) : Sound term members (s.ack v t i) := by
  have cases : ∀ w u, (s.ack v t i).reach w u = s.reach w u ∨
      (w = v ∧ u = t ∧ (s.ack v t i).reach w u = max (s.reach w u) i) := by
    intro w u
    refine (updatedCases s.reach v t _ w u).imp_right ?_
    rintro ⟨rfl,rfl,new⟩
    exact ⟨rfl,rfl,new⟩
  have live : ∀ {u k}, Live term members (s.ack v t i) u k → Live term members s u k := by
    rintro u k ⟨own,group,majority,all⟩
    refine ⟨own,group,majority,fun w mem => ?_⟩
    rcases cases w u with same | ⟨who,when,_⟩
    · rw [← same]
      exact all w mem
    · rw [who,when]
      exact .inr (le_of_eq now)
  exact {inv with
    reached := by
      intro w u positive
      rcases cases w u with same | ⟨who,when,_⟩
      · rw [same] at positive
        exact inv.reached positive
      · rw [who,when]
        exact le_of_eq now.symm
    inside := by
      intro w u
      rcases cases w u with same | ⟨_,when,new⟩
      · rw [same]
        exact inv.inside w u
      · rw [new,when]
        exact Nat.max_le.mpr ⟨inv.inside w t,inside⟩
    trusted := by
      intro u w y voted u₀ k before alive held
      rcases cases w u₀ with same | ⟨who,when,_⟩
      · rw [same] at held
        exact inv.trusted voted before (live alive) held
      · have late := (inv.cast voted).1
        rw [who,now] at late
        omega
    retained := by
      intro w u k alive held
      rcases cases w u with same | ⟨who,when,new⟩
      · rw [same] at held
        exact inv.retained (live alive) held
      · rw [new] at held
        rcases lt_or_ge k (s.reach w u) with old | _
        · exact inv.retained (live alive) old
        · subst who when
          refine List.IsPrefix.trans ?_ holds
          exact List.take_prefix_take_left (by omega)
    complete := fun before opened alive => inv.complete before opened (live alive)
  }

theorem soundStep (inv : Sound term members s) (step : Step term members s s') : Sound term members s' := by
  cases step with
  | advance up => exact inv.advance up
  | stand now fresh => exact inv.stand now fresh
  | vote now ran upToDate => exact inv.vote now ran upToDate
  | elect fresh majority => exact inv.elect fresh majority
  | write opened stamp => exact inv.write opened stamp
  | adopt now opened front keeps => exact inv.adopt now opened front keeps
  | ack now inside holds => exact inv.ack now inside holds

theorem soundSteps (inv : Sound term members s) (steps : Steps term members s s') : Sound term members s' := by
  induction steps with
  | refl => exact inv
  | tail _ one ih => exact soundStep ih one

theorem stepLater (step : Step term members s s') : Later s s' := by
  have same := laterRefl s
  cases step with
  | advance | adopt => exact ⟨same.led,same.reach,same.voted,same.cand⟩
  | stand _ fresh => exact ⟨same.led,same.reach,same.voted,standOther fresh⟩
  | vote => exact ⟨same.led,same.reach,.inl,same.cand⟩
  | elect fresh =>
    exact ⟨growsUpdate (fresh ▸ List.nil_prefix),same.reach,same.voted,same.cand⟩
  | write =>
    exact ⟨growsUpdate (List.prefix_append _ _),same.reach,same.voted,same.cand⟩
  | @ack v t i now inside holds =>
    refine ⟨same.led,?_,same.voted,same.cand⟩
    intro w u
    rcases updatedCases s.reach v t (max (s.reach v t) i) w u with old | ⟨rfl,rfl,new⟩
    · exact le_of_eq old.symm
    · exact (le_max_left _ _).trans (le_of_eq new.symm)

theorem stepsLater (steps : Steps term members s s') : Later s s' := by
  induction steps with
  | refl => exact laterRefl s
  | tail _ one ih => exact ih.trans (stepLater one)

def start (base : List E) : State ν E where
  cur := fun _ => 0
  log := fun _ => base
  led := update (fun _ => []) 0 base
  cand := fun _ _ => []
  voted := fun _ _ _ => False
  reach := fun _ => update (fun _ => 0) 0 base.length

theorem soundStart (stamped : ∀ e ∈ base, term e = 0) : Sound term members (start base) := by
  have later : ∀ {t}, t ≠ 0 → (start (ν := ν) base).led t = [] := by
    intro t other
    simp [start,update_of_ne other]
  have own : Consistent term (start (ν := ν) base).led base := by
    intro j e found
    rw [stamped e (mem_of_getElem? found)]
    rfl
  have unstarted : ∀ {v t}, t ≠ 0 → (start (ν := ν) base).reach v t = 0 := by
    intro v t other
    simp [start,update_of_ne other]
  exact {
    coherent := by
      intro t
      by_cases zero : t = 0
      · subst zero
        exact own
      · rw [later zero]
        intro j e found
        cases found
    bounded := by
      intro t j e found
      by_cases zero : t = 0
      · subst zero
        exact le_of_eq (stamped e (mem_of_getElem? found))
      · rw [later zero] at found
        cases found
    logs := fun _ => own
    logTerms := fun found => le_of_eq (stamped _ (mem_of_getElem? found))
    cands := by
      intro x t j e found
      cases found
    candTerms := by
      intro x t j e found
      cases found
    stood := fun some => absurd rfl some
    cast := fun voted => voted.elim
    reached := by
      intro v t positive
      by_cases zero : t = 0
      · exact le_of_eq zero
      · rw [unstarted zero] at positive
        cases positive
    inside := by
      intro v t
      by_cases zero : t = 0
      · subst zero
        exact le_refl _
      · rw [unstarted zero]
        exact zero_le _
    elected := fun positive opened => absurd (later (by omega)) opened
    trusted := fun voted => voted.elim
    retained := by
      intro v t k _ held
      by_cases zero : t = 0
      · subst zero
        exact List.take_prefix _ _
      · rw [unstarted zero] at held
        cases held
    complete := fun before opened _ => absurd (later (by omega)) opened
  }

def Settled (term : E → Nat) (members : List ν) (s : State ν E) (t k : Nat) : Prop :=
  ∃ j, k ≤ j ∧ Own term s t j ∧ Chosen members s t j

theorem Settled.below (settled : Settled term members s t k) (le : i ≤ k) : Settled term members s t i := by
  obtain ⟨j,up,own,chosen⟩ := settled
  exact ⟨j,le.trans up,own,chosen⟩

theorem Settled.length (settled : Settled term members s t k) : k < (s.led t).length := by
  obtain ⟨j,up,own,_⟩ := settled
  exact lt_of_le_of_lt up own.length

theorem Settled.later (settled : Settled term members s t k) (later : Later s s') : Settled term members s' t k := by
  obtain ⟨j,up,⟨e,found,stamp⟩,group,majority,all⟩ := settled
  have inside : j < (s.led t).length := Own.length ⟨e,found,stamp⟩
  obtain ⟨_,eq⟩ := later.led t
  refine ⟨j,up,⟨e,?_,stamp⟩,group,majority,fun v mem => ?_⟩
  · rw [← eq,List.getElem?_append_left inside]
    exact found
  · exact lt_of_lt_of_le (all v mem) (later.reach v t)

theorem Settled.front (settled : Settled term members s t k) (inv : Sound term members s)
    (before : t ≤ t') (opened : s.led t' ≠ []) : (s.led t).take (k+1) <+: s.led t' := by
  obtain ⟨j,_,own,group,majority,all⟩ := settled
  rcases lt_or_eq_of_le before with less | same
  · have live : Live term members s t j := ⟨own,group,majority,fun v mem => .inl (all v mem)⟩
    exact (List.take_prefix_take_left (by omega)).trans (inv.complete less opened live)
  · subst same
    exact List.take_prefix _ _

theorem Settled.opened (settled : Settled term members s t k) : s.led t ≠ [] := by
  intro empty
  have inside := settled.length
  rw [empty] at inside
  cases inside

theorem settledAgree (inv : Sound term members s) (left : Settled term members s t k)
    (right : Settled term members s t' k') : (s.led t).take (k+1) <+: (s.led t').take (k'+1) ∨
      (s.led t').take (k'+1) <+: (s.led t).take (k+1) := by
  rcases le_total t t' with before | before
  · exact List.prefix_or_prefix_of_prefix (left.front inv before right.opened) (List.take_prefix _ _)
  · exact List.prefix_or_prefix_of_prefix (List.take_prefix _ _) (right.front inv before left.opened)

end

end NoeDB.Replication
