import Mathlib.Logic.Relation
import Mathlib.Data.List.Basic

/-!
# Guarded transition systems

A system has one initial state and a partial, deterministic step for each
action.  `Reach ok` collects the states of the runs in which every step
satisfies the guard `ok`; a safety theorem about a class of runs is a theorem
about `Reach` for the guard of that class.  `exec` runs a concrete schedule, so
that particular runs can be evaluated; `Settled` states end the schedules of some
kind of step.  `Beside` compares a run with the runs of other schedules, for
properties that no single run shows.

The second part is about steps that belong to one of many parties.  If what a
state shows of a party changes only by the party's own steps, then a run shows
of each party what its own steps make of it, whatever the interleaving.
-/

namespace CommonChat.Foundation

structure System (σ α : Type*) where
  initial : σ
  step : σ → α → Option σ

namespace System

variable {σ τ α β : Type*}

/-- The states of the runs whose steps all satisfy the guard `ok`. -/
inductive Reach (S : System σ α) (ok : σ → α → Prop) : σ → Prop
  | initial : Reach S ok S.initial
  | step {s s' : σ} {a : α} :
      Reach S ok s → ok s a → S.step s a = some s' → Reach S ok s'

variable {S : System σ α} {ok : σ → α → Prop}

theorem Reach.invariant {I : σ → Prop} (hinit : I S.initial)
    (hstep : ∀ s a s', Reach S ok s → I s → ok s a →
      S.step s a = some s' → I s')
    {s : σ} (hs : Reach S ok s) : I s := by
  induction hs with
  | initial => exact hinit
  | step hreach hok hnext ih => exact hstep _ _ _ hreach ih hok hnext

/--
Projection of runs.  Every guarded step of `S` is matched by at most one
guarded step of `T` through the state projection `f`.
-/
theorem Reach.project {T : System τ β} {ok' : τ → β → Prop} (f : σ → τ)
    (hinit : f S.initial = T.initial)
    (hstep : ∀ s a s', Reach S ok s → ok s a → S.step s a = some s' →
      f s' = f s ∨ ∃ b, ok' (f s) b ∧ T.step (f s) b = some (f s'))
    {s : σ} (hs : Reach S ok s) : Reach T ok' (f s) := by
  induction hs with
  | initial =>
      rw [hinit]
      exact .initial
  | step hreach hok hnext ih =>
      rcases hstep _ _ _ hreach hok hnext with heq | ⟨b, hb, hT⟩
      · rw [heq]
        exact ih
      · exact .step ih hb hT

def record {κ : Type*} (S : System σ α) (note : σ → α → List κ) :
    System (σ × List κ) α where
  initial := (S.initial, [])
  step s a := (S.step s.1 a).map fun s' => (s', s.2 ++ note s.1 a)

def exec (S : System σ α) (test : σ → α → Bool) : σ → List α → Option σ
  | s, [] => some s
  | s, a :: rest =>
      if test s a then (S.step s a).bind fun s' => S.exec test s' rest
      else none

theorem Reach.exec {test : σ → α → Bool}
    (htest : ∀ s a, test s a = true → ok s a)
    {s s' : σ} {schedule : List α} (hs : Reach S ok s)
    (hrun : S.exec test s schedule = some s') : Reach S ok s' := by
  induction schedule generalizing s with
  | nil =>
      simp only [System.exec, Option.some.injEq] at hrun
      exact hrun ▸ hs
  | cons a rest ih =>
      rw [System.exec] at hrun
      split at hrun
      · rename_i hpass
        obtain ⟨next, hnext, hrest⟩ := Option.bind_eq_some_iff.mp hrun
        exact ih (.step hs (htest _ _ hpass) hnext) hrest
      · cases hrun

theorem exists_reach_of_exec (S : System σ α) (ok : σ → α → Prop)
    (test : σ → α → Bool) (schedule : List α) (check : σ → Bool)
    (htest : ∀ s a, test s a = true → ok s a)
    (hrun : (S.exec test S.initial schedule).any check = true) :
    ∃ s, Reach S ok s ∧ check s = true := by
  cases hexec : S.exec test S.initial schedule with
  | none => rw [hexec] at hrun; cases hrun
  | some s =>
      rw [hexec] at hrun
      exact ⟨s, Reach.exec htest .initial hexec, hrun⟩

/-! ## Schedules that come to an end -/

def Settled (S : System σ α) (test : σ → α → Bool) (s : σ) : Prop :=
  ∀ a, test s a = true → S.step s a = none

inductive Beside (S : System σ α) (ok : σ → α → Prop) (alt : σ → α → α → Prop) :
    σ → List α → Prop
  | initial : Beside S ok alt S.initial []
  | step {s s' : σ} {a b : α} {schedule : List α} :
      Beside S ok alt s schedule → ok s a → alt s a b → S.step s a = some s' →
      Beside S ok alt s' (schedule ++ [b])

def run (S : System σ α) (schedule : List α) : Option σ :=
  schedule.foldlM S.step S.initial

variable {alt : σ → α → α → Prop}

theorem Beside.reach {s : σ} {schedule : List α} (h : Beside S ok alt s schedule) :
    Reach S ok s := by
  induction h with
  | initial => exact .initial
  | step _ hok _ hnext ih => exact .step ih hok hnext

/--
Unwinding.  If every alternative to a step can be taken in every related state
and leads to a related state, the schedule of alternatives is a run too, and the
two runs end in related states.
-/
theorem Beside.exists_run {R : σ → σ → Prop} (hinit : R S.initial S.initial)
    (hstep : ∀ s t a b s', Reach S ok s → R s t → ok s a → alt s a b →
      S.step s a = some s' → ∃ t', S.step t b = some t' ∧ R s' t')
    {s : σ} {schedule : List α} (h : Beside S ok alt s schedule) :
    ∃ t, S.run schedule = some t ∧ R s t := by
  induction h with
  | initial => exact ⟨S.initial, rfl, hinit⟩
  | step hbeside hok halt hnext ih =>
      obtain ⟨t, hrun, hrel⟩ := ih
      obtain ⟨t', ht', hrel'⟩ := hstep _ t _ _ _ hbeside.reach hrel hok halt hnext
      refine ⟨t', ?_, hrel'⟩
      rw [run] at hrun ⊢
      rw [List.foldlM_append, hrun]
      simp [ht']

theorem Beside.exec {γ : Type*} (act other : γ → α) {test : σ → γ → Bool}
    (htest : ∀ s c, test s c = true → ok s (act c) ∧ alt s (act c) (other c))
    {s s' : σ} {schedule : List α} {entries : List γ}
    (h : Beside S ok alt s schedule)
    (hrun : (System.mk S.initial fun s c => S.step s (act c)).exec test s entries =
      some s') : Beside S ok alt s' (schedule ++ entries.map other) := by
  induction entries generalizing s schedule with
  | nil =>
      simp only [System.exec, Option.some.injEq] at hrun
      simpa using hrun ▸ h
  | cons c rest ih =>
      rw [System.exec] at hrun
      split at hrun
      · rename_i hpass
        obtain ⟨next, hnext, hrest⟩ := Option.bind_eq_some_iff.mp hrun
        obtain ⟨hok, halt⟩ := htest s c hpass
        have hall := ih (.step h hok halt hnext) hrest
        rw [List.append_assoc] at hall
        exact hall
      · cases hrun

end System

/-! ## Local views -/

section LocalView

variable {σ α ι ν ε : Type}

/--
`view` shows a state part by part.  An event that satisfies `ok` moves the part
of its owner by `advance`, and no other part.
-/
structure LocalView (step : σ → α → Except ε σ) (ok : α → Prop) (owner : α → ι)
    (view : σ → ι → ν) (advance : ν → α → ν) : Prop where
  own : ∀ s a s', ok a → step s a = .ok s' →
    view s' (owner a) = advance (view s (owner a)) a
  other : ∀ s a s' i, ok a → step s a = .ok s' → i ≠ owner a → view s' i = view s i

variable [DecidableEq ι] {step : σ → α → Except ε σ} {ok : α → Prop}
variable {owner : α → ι} {view : σ → ι → ν} {advance : ν → α → ν}

theorem LocalView.view_of_run (h : LocalView step ok owner view advance)
    {events : List α} (hok : ∀ a ∈ events, ok a) {s s' : σ}
    (hrun : events.foldlM step s = .ok s') (i : ι) :
    view s' i = (events.filter fun a => owner a = i).foldl advance (view s i) := by
  induction events generalizing s with
  | nil =>
      cases hrun
      rfl
  | cons a rest ih =>
      have hrest : ∀ b ∈ rest, ok b := fun b hb => hok b (List.mem_cons_of_mem _ hb)
      rw [List.foldlM_cons] at hrun
      cases hstep : step s a with
      | error e =>
          rw [hstep] at hrun
          cases hrun
      | ok next =>
          rw [hstep] at hrun
          rw [ih hrest hrun]
          by_cases howner : owner a = i
          · subst howner
            rw [h.own s a next (hok a List.mem_cons_self) hstep]
            simp
          · rw [h.other s a next i (hok a List.mem_cons_self) hstep (Ne.symm howner)]
            simp [howner]

theorem LocalView.view_eq_of_filter_eq (h : LocalView step ok owner view advance)
    {events events' : List α} (hok : ∀ a ∈ events, ok a)
    (hsame : ∀ i, events.filter (fun a => owner a = i) =
      events'.filter fun a => owner a = i)
    {s t t' : σ} (hrun : events.foldlM step s = .ok t)
    (hrun' : events'.foldlM step s = .ok t') (i : ι) : view t i = view t' i := by
  have hok' : ∀ a ∈ events', ok a := by
    intro a ha
    have hmem : a ∈ events'.filter fun b => owner b = owner a := by simpa using ha
    rw [← hsame] at hmem
    exact hok a (List.mem_of_mem_filter hmem)
  rw [h.view_of_run hok hrun i, h.view_of_run hok' hrun' i, hsame i]

end LocalView

end CommonChat.Foundation
